import Dataflow.Bytes

/-!
# The hash function BLAKE3

The 32-byte hash of a byte string, without a key. The input is cut into chunks of 1024 bytes and
each chunk into blocks of 64; a chunk is compressed block by block, and the chunks are the leaves
of a binary tree whose left parts are as large as a power of two allows.

* `Blake3.compress`: the compression function.
* `Blake3.Node`: a compression that has not yet been run, since only the root knows that it is one.
* `Blake3.tree`: the root node of an input.
* `blake3`: the hash.
-/

namespace Dataflow

namespace Blake3

/-! ## The compression function -/

abbrev Chain := Vector UInt32 8

abbrev Block := Vector UInt32 16

/-- The chaining value before the first block. -/
def initialChain : Chain :=
  #v[0x6A09E667, 0xBB67AE85, 0x3C6EF372, 0xA54FF53A,
     0x510E527F, 0x9B05688C, 0x1F83D9AB, 0x5BE0CD19]

def rotateRight (x : UInt32) (n : UInt32) : UInt32 := (x >>> n) ||| (x <<< (32 - n))

/-- Mix two words of the message into four words of the state. -/
def mix (v : Block) (a b c d : Fin 16) (x y : UInt32) : Block :=
  let v := v.set a (v[a] + v[b] + x)
  let v := v.set d (rotateRight (v[d] ^^^ v[a]) 16)
  let v := v.set c (v[c] + v[d])
  let v := v.set b (rotateRight (v[b] ^^^ v[c]) 12)
  let v := v.set a (v[a] + v[b] + y)
  let v := v.set d (rotateRight (v[d] ^^^ v[a]) 8)
  let v := v.set c (v[c] + v[d])
  v.set b (rotateRight (v[b] ^^^ v[c]) 7)

/-- Mix the columns of the state, then its diagonals. -/
def round (v m : Block) : Block :=
  let v := mix v 0 4 8 12 m[0] m[1]
  let v := mix v 1 5 9 13 m[2] m[3]
  let v := mix v 2 6 10 14 m[4] m[5]
  let v := mix v 3 7 11 15 m[6] m[7]
  let v := mix v 0 5 10 15 m[8] m[9]
  let v := mix v 1 6 11 12 m[10] m[11]
  let v := mix v 2 7 8 13 m[12] m[13]
  mix v 3 4 9 14 m[14] m[15]

/-- The order in which a round takes the words of the round before it. -/
def permute (m : Block) : Block :=
  #v[m[2], m[6], m[3], m[10], m[7], m[0], m[4], m[13],
     m[1], m[11], m[12], m[5], m[9], m[14], m[15], m[8]]

/-- A number of rounds, the message permuted between them. -/
def rounds : (count : Nat) → (v m : Block) → Block
  | 0, v, _ => v
  | count + 1, v, m => rounds count (round v m) (permute m)

/-- A compression: what goes into it. -/
structure Node where
  chain : Chain
  block : Block
  counter : Nat
  length : Nat
  flags : UInt32

/-- Run a compression and give the new chaining value. -/
def compress (node : Node) : Chain :=
  let h := node.chain
  let v : Block :=
    #v[h[0], h[1], h[2], h[3], h[4], h[5], h[6], h[7],
       initialChain[0], initialChain[1], initialChain[2], initialChain[3],
       UInt32.ofNat node.counter, UInt32.ofNat (node.counter / Bytes.capacity 4),
       UInt32.ofNat node.length, node.flags]
  let v := rounds 7 v node.block
  #v[v[0] ^^^ v[8], v[1] ^^^ v[9], v[2] ^^^ v[10], v[3] ^^^ v[11],
     v[4] ^^^ v[12], v[5] ^^^ v[13], v[6] ^^^ v[14], v[7] ^^^ v[15]]

/-! ## Chunks -/

def blockLength : Nat := 64

def chunkLength : Nat := 1024

/-- Marks the first block of a chunk. -/
def chunkStart : UInt32 := 1

/-- Marks the last block of a chunk. -/
def chunkEnd : UInt32 := 2

/-- Marks a node that joins two others. -/
def parentFlag : UInt32 := 4

/-- Marks the root. -/
def rootFlag : UInt32 := 8

/-- The words of a block; the bytes that a short block lacks are zero. -/
def wordsOf (bytes : Bytes) : Block :=
  Vector.ofFn fun i => UInt32.ofNat (Bytes.ofLittleEndian (bytes.slice (4 * i) 4))

/-- The last compression of a chunk, all blocks before it already run. -/
def chunkNode (index : Nat) (flags : UInt32) (chain : Chain) (bytes : Bytes) : Node :=
  if bytes.length ≤ blockLength then
    ⟨chain, wordsOf bytes, index, bytes.length, flags ||| chunkEnd⟩
  else
    let node : Node := ⟨chain, wordsOf (bytes.take blockLength), index, blockLength, flags⟩
    chunkNode index 0 (compress node) (bytes.drop blockLength)
termination_by bytes.length
decreasing_by
  simp only [List.length_drop, blockLength] at *
  omega

/-! ## The tree -/

def parentNode (left right : Chain) : Node :=
  ⟨initialChain, left ++ right, 0, blockLength, parentFlag⟩

/-- The length of the left part: the greatest power of two of chunks that leaves a right part. -/
def leftLength (length : Nat) : Nat := chunkLength * (1 <<< Nat.log2 ((length - 1) / chunkLength))

theorem leftLength_pos (length : Nat) : 0 < leftLength length := by
  rw [leftLength, Nat.one_shiftLeft]
  exact Nat.mul_pos (by decide) (Nat.two_pow_pos _)

theorem leftLength_lt (length : Nat) (h : chunkLength < length) : leftLength length < length := by
  have hne : (length - 1) / chunkLength ≠ 0 := by
    simp only [chunkLength] at *
    omega
  have hle : 1 <<< Nat.log2 ((length - 1) / chunkLength) ≤ (length - 1) / chunkLength := by
    rw [Nat.one_shiftLeft]
    exact Nat.log2_self_le hne
  simp only [leftLength, chunkLength] at *
  omega

/-- The root of the tree over a part of the input whose first chunk has the given index. -/
def tree (firstChunk : Nat) (bytes : Bytes) : Node :=
  if bytes.length ≤ chunkLength then
    chunkNode firstChunk chunkStart initialChain bytes
  else
    let n := leftLength bytes.length
    let left := tree firstChunk (bytes.take n)
    let right := tree (firstChunk + n / chunkLength) (bytes.drop n)
    parentNode (compress left) (compress right)
termination_by bytes.length
decreasing_by
  · have := leftLength_lt bytes.length (by omega)
    simp only [List.length_take]
    omega
  · have := leftLength_pos bytes.length
    simp only [List.length_drop] at *
    omega

end Blake3

def blake3 (bytes : Bytes) : Bytes :=
  let root := Blake3.tree 0 bytes
  let chain := Blake3.compress { root with flags := root.flags ||| Blake3.rootFlag, counter := 0 }
  chain.toList.flatMap fun word => Bytes.littleEndian 4 word.toNat

end Dataflow

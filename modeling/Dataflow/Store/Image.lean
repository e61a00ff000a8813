import Dataflow.Bytes

/-!
# Stored bytes

What a store holds: a byte string of which any range can be read without a walk from the front.
Every operation is an operation on the byte string that the image stands for.

* `Image`, `Image.toBytes`: the stored bytes, and the byte string.
* `Image.slice`: reads a range.
* `Image.append`, `concat`, `take`, `drop`: changes. The lemma `toBytes_append` and those beside it
  say what each makes of the byte string.
-/

namespace Dataflow

/-- Stored bytes. -/
structure Image where
  cells : Array UInt8 := #[]
  deriving DecidableEq, Repr

namespace Image

/-! ## The byte string -/

def ofBytes (bytes : Bytes) : Image := ⟨bytes.toArray⟩

def toBytes (m : Image) : Bytes := m.cells.toList

def size (m : Image) : Nat := m.cells.size

def isEmpty (m : Image) : Bool := m.size == 0

@[simp] theorem toBytes_ofBytes (bytes : Bytes) : (ofBytes bytes).toBytes = bytes := rfl

@[simp] theorem length_toBytes (m : Image) : m.toBytes.length = m.size := Array.length_toList

/-! ## Ranges -/

/-- The bytes of the range of the given length that starts at `offset`, as far as it reaches. -/
def slice (m : Image) (offset length : Nat) : Bytes :=
  (m.cells.extract offset (offset + length)).toList

theorem slice_eq (m : Image) (offset length : Nat) :
    m.slice offset length = m.toBytes.slice offset length := by
  rw [slice, Array.toList_extract, List.extract_eq_drop_take', List.drop_take]
  rw [Nat.add_sub_cancel_left]
  rfl

/-! ## Changes -/

def append (m : Image) (bytes : Bytes) : Image := ⟨m.cells ++ bytes⟩

/-- One image after the other. -/
def concat (m n : Image) : Image := ⟨m.cells ++ n.cells⟩

def take (m : Image) (length : Nat) : Image := ⟨m.cells.extract 0 length⟩

def drop (m : Image) (length : Nat) : Image := ⟨m.cells.extract length m.size⟩

@[simp] theorem toBytes_append (m : Image) (bytes : Bytes) :
    (m.append bytes).toBytes = m.toBytes ++ bytes := by
  simp [append, toBytes]

@[simp] theorem toBytes_concat (m n : Image) : (m.concat n).toBytes = m.toBytes ++ n.toBytes := by
  simp [concat, toBytes]

@[simp] theorem toBytes_take (m : Image) (length : Nat) :
    (m.take length).toBytes = m.toBytes.take length := by
  simp [take, toBytes]

@[simp] theorem toBytes_drop (m : Image) (length : Nat) :
    (m.drop length).toBytes = m.toBytes.drop length := by
  rw [toBytes, drop, Array.toList_extract, List.extract_eq_drop_take', ← length_toBytes, toBytes,
    List.take_length]

end Image

end Dataflow

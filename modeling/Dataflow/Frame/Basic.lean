import Dataflow.Checksum.Crc32
import Dataflow.Error

/-!
# Records and their frames

A record of the checkpoint log is stored as a frame: a header of 17 bytes, the key, the value and
a checksum over all of it. Numbers are little-endian.

    key length u32 | value length u32 | flags u8 | sequence u64 | key | value | checksum u32

A frame tells its own length, so a log is read from front to back without a table of contents.

* `Record`, `Record.encode`: a record and its frame.
* `Header`, `Header.parse`: what the first 17 bytes say.
* `Frame`, `Frame.verify`: a frame whose checksum fits; `Frame.record` is the record in it.
-/

namespace Dataflow

/-! ## Records -/

/-- How durable a record has to be before its write is acknowledged. -/
inductive Durability
  /-- Synced before the write returns. -/
  | persist
  /-- Durable when the flush policy gets to it. -/
  | transient
  deriving DecidableEq, Repr

/-- A record of the checkpoint log. -/
structure Record where
  key : Bytes
  value : Bytes
  durability : Durability
  /-- The write allowed an earlier value of the key to be replaced. -/
  replace : Bool
  sequence : SequenceNumber
  deriving DecidableEq, Repr

def headerLength : Nat := 17

def trailerLength : Nat := 4

def persistentBit : UInt8 := 1

def replaceBit : UInt8 := 2

def meaningfulBits : UInt8 := persistentBit ||| replaceBit

/-- The length of a frame with a key and a value of the given lengths. -/
def frameLength (keyLength valueLength : Nat) : Nat :=
  headerLength + trailerLength + keyLength + valueLength

namespace Record

def flags (r : Record) : UInt8 :=
  (if r.durability = .persist then persistentBit else 0) |||
    (if r.replace then replaceBit else 0)

def headerBytes (r : Record) : Bytes :=
  Bytes.littleEndian 4 r.key.length ++ Bytes.littleEndian 4 r.value.length ++
    r.flags :: Bytes.littleEndian 8 r.sequence.number

def body (r : Record) : Bytes := r.headerBytes ++ r.key ++ r.value

/-- A record's frame, whether or not its fields fit. -/
def frame (r : Record) : Bytes := r.body ++ Bytes.littleEndian 4 (crc32 r.body).toNat

/-- A record's frame. A key or a value whose length does not fit four bytes is refused. -/
def encode (r : Record) : Except Error Bytes :=
  if fieldLimit < r.key.length then
    .error (.command (.keyTooLong r.key.length))
  else if fieldLimit < r.value.length then
    .error (.command (.valueTooLong r.value.length))
  else
    .ok r.frame

theorem length_frame (r : Record) : r.frame.length = frameLength r.key.length r.value.length := by
  simp only [frame, body, headerBytes, frameLength, headerLength, trailerLength,
    List.length_append, List.length_cons, Bytes.length_littleEndian]
  omega

end Record

/-! ## Headers -/

/-- What the header of a frame says. -/
structure Header where
  keyLength : Nat
  valueLength : Nat
  flags : UInt8
  sequence : SequenceNumber
  deriving DecidableEq, Repr

namespace Header

/-- Read a header. Flags without a meaning are damage. -/
def parse (bytes : Bytes) : Except Damage Header :=
  let flags := bytes.getD 8 0
  if flags &&& ~~~meaningfulBits ≠ 0 then
    .error (.unknownFlags flags)
  else
    .ok {
      keyLength := Bytes.ofLittleEndian (bytes.slice 0 4)
      valueLength := Bytes.ofLittleEndian (bytes.slice 4 4)
      flags := flags
      sequence := ⟨Bytes.ofLittleEndian (bytes.slice 9 8)⟩ }

/-- The length of the whole frame. -/
def frameLength (h : Header) : Nat := Dataflow.frameLength h.keyLength h.valueLength

def durability (h : Header) : Durability :=
  if h.flags &&& persistentBit ≠ 0 then .persist else .transient

def replace (h : Header) : Bool := h.flags &&& replaceBit ≠ 0

end Header

/-! ## Frames -/

/-- The bytes of a frame together with what their header says. -/
structure Frame where
  header : Header
  bytes : Bytes
  deriving DecidableEq, Repr

namespace Frame

/-- Accept the bytes of a frame if their checksum fits. -/
def verify (header : Header) (bytes : Bytes) : Except Damage Frame :=
  let bodyLength := bytes.length - trailerLength
  let stored := UInt32.ofNat (Bytes.ofLittleEndian (bytes.drop bodyLength))
  let computed := crc32 (bytes.take bodyLength)
  if stored = computed then .ok ⟨header, bytes⟩ else .error (.checksum stored computed)

def key (f : Frame) : Bytes := f.bytes.slice headerLength f.header.keyLength

def value (f : Frame) : Bytes :=
  f.bytes.slice (headerLength + f.header.keyLength) f.header.valueLength

def record (f : Frame) : Record where
  key := f.key
  value := f.value
  durability := f.header.durability
  replace := f.header.replace
  sequence := f.header.sequence

end Frame

end Dataflow

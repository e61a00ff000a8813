import Dataflow.Store.Image

/-!
# Sparse bytes

What a file holds: a byte string in which a stretch that nobody wrote is only counted. A file can
therefore be given any length at no cost; what was not written reads as zeros.

* `Stretch`, `SparseBytes`: a stretch of one kind, and a row of them.
* `SparseBytes.toBytes`: the byte string.
* `SparseBytes.slice`: reads a range.
* `SparseBytes.take`, `drop`, `add`, `resize`, `overwrite`, `flip`: changes. The lemma
  `toBytes_take` and those beside it say what each makes of the byte string.
-/

namespace Dataflow

/-- A stretch of a file: bytes that were written, or a number of zeros that were not. -/
inductive Stretch
  | written (image : Image)
  | hole (length : Nat)
  deriving DecidableEq, Repr

namespace Stretch

def toBytes : Stretch → Bytes
  | written image => image.toBytes
  | hole length => List.replicate length 0

def size : Stretch → Nat
  | written image => image.size
  | hole length => length

/-- The bytes of the range of the given length that starts at `offset`, as far as it reaches. -/
def slice (p : Stretch) (offset length : Nat) : Bytes :=
  match p with
  | written image => image.slice offset length
  | hole size => List.replicate (min length (size - offset)) 0

def take (p : Stretch) (length : Nat) : Stretch :=
  match p with
  | written image => written (image.take length)
  | hole size => hole (min length size)

def drop (p : Stretch) (length : Nat) : Stretch :=
  match p with
  | written image => written (image.drop length)
  | hole size => hole (size - length)

/-- Put two stretches one after the other; two of one kind become one. -/
def join : Stretch → Stretch → List Stretch
  | written a, written b => [written (a.concat b)]
  | hole a, hole b => [hole (a + b)]
  | p, q => [p, q]

@[simp] theorem length_toBytes (p : Stretch) : p.toBytes.length = p.size := by
  cases p <;> simp [toBytes, size]

theorem slice_eq (p : Stretch) (offset length : Nat) :
    p.slice offset length = p.toBytes.slice offset length := by
  cases p with
  | written image => exact image.slice_eq offset length
  | hole size => simp [slice, toBytes, Bytes.slice]

@[simp] theorem toBytes_take (p : Stretch) (length : Nat) :
    (p.take length).toBytes = p.toBytes.take length := by
  cases p <;> simp [take, toBytes]

@[simp] theorem toBytes_drop (p : Stretch) (length : Nat) :
    (p.drop length).toBytes = p.toBytes.drop length := by
  cases p <;> simp [drop, toBytes]

@[simp] theorem flatMap_join (p q : Stretch) :
    (p.join q).flatMap toBytes = p.toBytes ++ q.toBytes := by
  cases p <;> cases q <;> simp [join, toBytes]

end Stretch

/-- A byte string as a row of stretches. -/
structure SparseBytes where
  stretches : List Stretch := []
  deriving DecidableEq, Repr

namespace SparseBytes

/-! ## The byte string -/

def toBytes (m : SparseBytes) : Bytes := m.stretches.flatMap Stretch.toBytes

def ofBytes (bytes : Bytes) : SparseBytes := ⟨[.written (.ofBytes bytes)]⟩

def size (m : SparseBytes) : Nat := m.stretches.foldr (fun p n => p.size + n) 0

@[simp] theorem toBytes_ofBytes (bytes : Bytes) : (ofBytes bytes).toBytes = bytes := by
  simp [toBytes, ofBytes, Stretch.toBytes]

@[simp] theorem length_toBytes (m : SparseBytes) : m.toBytes.length = m.size := by
  obtain ⟨row⟩ := m
  simp only [toBytes, size]
  induction row with
  | nil => rfl
  | cons p rest ih =>
    rw [List.flatMap_cons, List.length_append, ih, p.length_toBytes, List.foldr_cons]

/-! ## Ranges -/

def sliceFrom : List Stretch → (offset length : Nat) → Bytes
  | [], _, _ => []
  | p :: rest, offset, length =>
    p.slice offset length ++ sliceFrom rest (offset - p.size) (length - (p.size - offset))

/-- The bytes of the range of the given length that starts at `offset`, as far as it reaches. -/
def slice (m : SparseBytes) (offset length : Nat) : Bytes := sliceFrom m.stretches offset length

theorem slice_eq (m : SparseBytes) (offset length : Nat) :
    m.slice offset length = m.toBytes.slice offset length := by
  obtain ⟨row⟩ := m
  simp only [slice, toBytes]
  induction row generalizing offset length with
  | nil => simp [sliceFrom, Bytes.slice]
  | cons p rest ih =>
    rw [sliceFrom, ih, p.slice_eq, List.flatMap_cons]
    simp [Bytes.slice, List.drop_append, List.take_append]

/-! ## Changes -/

def takeFrom : List Stretch → (length : Nat) → List Stretch
  | [], _ => []
  | p :: rest, length =>
    if length = 0 then []
    else if length < p.size then [p.take length]
    else p :: takeFrom rest (length - p.size)

def take (m : SparseBytes) (length : Nat) : SparseBytes := ⟨takeFrom m.stretches length⟩

def dropFrom : List Stretch → (length : Nat) → List Stretch
  | [], _ => []
  | p :: rest, length =>
    if length < p.size then p.drop length :: rest else dropFrom rest (length - p.size)

def drop (m : SparseBytes) (length : Nat) : SparseBytes := ⟨dropFrom m.stretches length⟩

def addTo : List Stretch → Stretch → List Stretch
  | [], q => [q]
  | [p], q => p.join q
  | p :: rest, q => p :: addTo rest q

/-- Add a stretch at the end, unless it is empty. -/
def add (m : SparseBytes) (q : Stretch) : SparseBytes :=
  if q.size = 0 then m else ⟨addTo m.stretches q⟩

def append (m n : SparseBytes) : SparseBytes := n.stretches.foldl add m

/-- Cut to a length, or fill up with zeros. -/
def resize (m : SparseBytes) (length : Nat) : SparseBytes :=
  (m.take length).add (.hole (length - m.size))

/-- Write bytes over those from an offset on. A gap before them is filled with zeros. -/
def overwrite (m : SparseBytes) (offset : Nat) (bytes : Bytes) : SparseBytes :=
  ((m.resize offset).add (.written (.ofBytes bytes))).append (m.drop (offset + bytes.length))

/-- Flip bits of the byte at an offset, if there is one. -/
def flip (m : SparseBytes) (offset : Nat) (mask : UInt8) : SparseBytes :=
  if offset < m.size then m.overwrite offset ((m.slice offset 1).map (· ^^^ mask)) else m

@[simp] theorem toBytes_take (m : SparseBytes) (length : Nat) :
    (m.take length).toBytes = m.toBytes.take length := by
  obtain ⟨row⟩ := m
  simp only [take, toBytes]
  fun_induction takeFrom row length with
  | case1 => simp
  | case2 => simp
  | case3 p rest length _ h =>
    simp [List.take_append, Nat.sub_eq_zero_of_le (Nat.le_of_lt h)]
  | case4 p rest length _ h ih =>
    have h : p.toBytes.length ≤ length := by simpa using h
    simp [ih, List.take_append, List.take_of_length_le h]

@[simp] theorem toBytes_drop (m : SparseBytes) (length : Nat) :
    (m.drop length).toBytes = m.toBytes.drop length := by
  obtain ⟨row⟩ := m
  simp only [drop, toBytes]
  fun_induction dropFrom row length with
  | case1 => simp
  | case2 p rest length h =>
    simp [List.drop_append, Nat.sub_eq_zero_of_le (Nat.le_of_lt h)]
  | case3 p rest length h ih =>
    have h : p.toBytes.length ≤ length := by simpa using h
    simp [ih, List.drop_append, List.drop_of_length_le h]

theorem flatMap_addTo (row : List Stretch) (q : Stretch) :
    (addTo row q).flatMap Stretch.toBytes = row.flatMap Stretch.toBytes ++ q.toBytes := by
  fun_induction addTo row q with
  | case1 => simp
  | case2 => simp
  | case3 p rest q _ ih => rw [List.flatMap_cons, ih, List.flatMap_cons, List.append_assoc]

@[simp] theorem toBytes_add (m : SparseBytes) (q : Stretch) :
    (m.add q).toBytes = m.toBytes ++ q.toBytes := by
  rw [add]
  split
  case isTrue h =>
    rw [List.eq_nil_of_length_eq_zero (q.length_toBytes.trans h), List.append_nil]
  case isFalse => exact flatMap_addTo m.stretches q

@[simp] theorem toBytes_append (m n : SparseBytes) :
    (m.append n).toBytes = m.toBytes ++ n.toBytes := by
  obtain ⟨row⟩ := n
  rw [append, show toBytes ⟨row⟩ = row.flatMap Stretch.toBytes from rfl]
  induction row generalizing m with
  | nil => simp
  | cons p rest ih => rw [List.foldl_cons, ih, toBytes_add, List.flatMap_cons, List.append_assoc]

@[simp] theorem toBytes_resize (m : SparseBytes) (length : Nat) :
    (m.resize length).toBytes =
      m.toBytes.take length ++ List.replicate (length - m.toBytes.length) 0 := by
  simp [resize, Stretch.toBytes]

@[simp] theorem toBytes_overwrite (m : SparseBytes) (offset : Nat) (bytes : Bytes) :
    (m.overwrite offset bytes).toBytes =
      (m.resize offset).toBytes ++ bytes ++ m.toBytes.drop (offset + bytes.length) := by
  simp [overwrite, Stretch.toBytes]

@[simp] theorem toBytes_flip (m : SparseBytes) (offset : Nat) (mask : UInt8) :
    (m.flip offset mask).toBytes = m.toBytes.modify offset (· ^^^ mask) := by
  rw [flip]
  split
  case isTrue h =>
    have h : offset < m.toBytes.length := by simpa using h
    have byte : m.slice offset 1 = [m.toBytes[offset]] := by
      rw [slice_eq, Bytes.slice, List.drop_eq_getElem_cons h]
      rfl
    rw [byte, toBytes_overwrite, toBytes_resize, List.modify_eq_take_cons_drop h,
      Nat.sub_eq_zero_of_le (Nat.le_of_lt h)]
    simp
  case isFalse h => rw [List.modify_eq_self (by simpa using h)]

end SparseBytes

end Dataflow

/-!
# Byte strings

A byte string is a list of bytes. This module holds what the rest of the library reads off and
writes into one.

* `Bytes.hex`: the text of a byte string, two lower-case hexadecimal digits a byte.
* `Bytes.littleEndian`, `Bytes.ofLittleEndian`: numbers as base-256 digits, least significant
  digit first; `ofLittleEndian_littleEndian` says that a number which fits is read back.
* `Bytes.capacity`: how many numbers fit a width.
* `Bytes.slice`: the bytes of a range.
-/

namespace Dataflow

abbrev Bytes := List UInt8

namespace Bytes

/-! ## Text -/

def hexDigits (b : UInt8) : List Char :=
  [Nat.digitChar (b.toNat / 16), Nat.digitChar (b.toNat % 16)]

/-- Two lower-case hexadecimal digits a byte, in order. -/
def hex (bytes : Bytes) : String := String.ofList (bytes.flatMap hexDigits)

/-! ## Little-endian numbers -/

/-- The `width` lowest base-256 digits of a number, least significant first. -/
def littleEndian : (width : Nat) → Nat → Bytes
  | 0, _ => []
  | width + 1, n => UInt8.ofNat n :: littleEndian width (n / 256)

/-- How many numbers fit a width; also the first number that does not. -/
def capacity : (width : Nat) → Nat
  | 0 => 1
  | width + 1 => 256 * capacity width

/-- The number whose base-256 digits these are, least significant first. -/
def ofLittleEndian : Bytes → Nat
  | [] => 0
  | b :: rest => b.toNat + 256 * ofLittleEndian rest

@[simp] theorem length_littleEndian (width n : Nat) : (littleEndian width n).length = width := by
  induction width generalizing n with
  | zero => rfl
  | succ width ih => simp [littleEndian, ih]

theorem ofLittleEndian_littleEndian {width n : Nat} (h : n < capacity width) :
    ofLittleEndian (littleEndian width n) = n := by
  induction width generalizing n with
  | zero => simp only [capacity] at h; simp only [littleEndian, ofLittleEndian]; omega
  | succ width ih =>
    have hdiv : n / 256 < capacity width := by
      simp only [capacity] at h
      exact Nat.div_lt_of_lt_mul h
    simp only [littleEndian, ofLittleEndian, ih hdiv, UInt8.toNat_ofNat']
    omega

theorem ofLittleEndian_lt (bytes : Bytes) : ofLittleEndian bytes < capacity bytes.length := by
  induction bytes with
  | nil => simp [ofLittleEndian, capacity]
  | cons b rest ih =>
    have hb := b.toNat_lt
    simp only [ofLittleEndian, List.length_cons, capacity]
    omega

theorem littleEndian_ofLittleEndian (bytes : Bytes) :
    littleEndian bytes.length (ofLittleEndian bytes) = bytes := by
  induction bytes with
  | nil => rfl
  | cons b rest ih =>
    have hb := b.toNat_lt
    have hdiv : (b.toNat + 256 * ofLittleEndian rest) / 256 = ofLittleEndian rest := by omega
    have hmod : UInt8.ofNat (b.toNat + 256 * ofLittleEndian rest) = b := by
      apply UInt8.toNat_inj.mp
      rw [UInt8.toNat_ofNat']
      omega
    simp only [List.length_cons, littleEndian, ofLittleEndian, hdiv, hmod, ih]

/-! ## Ranges -/

/-- The bytes of the range of the given length that starts at `offset`, as far as it reaches. -/
def slice (bytes : Bytes) (offset length : Nat) : Bytes := (bytes.drop offset).take length

theorem length_slice {bytes : Bytes} {offset length : Nat} (h : offset + length ≤ bytes.length) :
    (bytes.slice offset length).length = length := by
  simp only [slice, List.length_take, List.length_drop]
  omega

end Bytes

end Dataflow

import Dataflow.Bytes

/-!
# Numbers of variable length

A number is written in base 128, least significant digit first, one digit a byte; every byte but
the last carries the high bit. A reader takes at most ten bytes, and the number it finds must fit
64 bits.

* `Varint.encode`, `Varint.decode`: the two directions.
* `Varint.decode_encode`: whatever follows a written number, reading gives the number and leaves
  what follows.
-/

namespace Dataflow

/-- Why a number, or a string of bytes that it announces, could not be read. -/
inductive DecodeError
  | endOfBuffer
  /-- Ten bytes do not hold a number of 64 bits. -/
  | badVarint
  deriving DecidableEq, Repr

def DecodeError.message : DecodeError → String
  | .endOfBuffer => "Hit the end of buffer, expected more data"
  | .badVarint =>
    "Found a varint that didn't terminate. Is the usize too big for this platform?"

namespace Varint

def maxLength : Nat := 10

/-- The base-128 digits of a number, least significant first, all but the last marked. -/
def encode (n : Nat) : Bytes :=
  if n < 128 then [UInt8.ofNat n] else UInt8.ofNat (n % 128 + 128) :: encode (n / 128)

/-- Read a number from the digits that are left of its ten: the tenth is a single bit. -/
def decodeDigits : (left : Nat) → Bytes → Except DecodeError (Nat × Bytes)
  | 0, _ => .error .badVarint
  | _ + 1, [] => .error .endOfBuffer
  | left + 1, b :: rest =>
    if b.toNat < 128 then
      if left = 0 ∧ 1 < b.toNat then .error .badVarint else .ok (b.toNat, rest)
    else
      match decodeDigits left rest with
      | .error e => .error e
      | .ok (high, rest) => .ok (b.toNat - 128 + 128 * high, rest)

/-- Read a number, leaving the bytes after it. -/
def decode (bytes : Bytes) : Except DecodeError (Nat × Bytes) := decodeDigits maxLength bytes

/-- The first number that does not fit a number of digits and the single bit above them. -/
def capacity : (digits : Nat) → Nat
  | 0 => 2
  | digits + 1 => 128 * capacity digits

theorem decodeDigits_encode {left n : Nat} (rest : Bytes) (h : n < capacity left) :
    decodeDigits (left + 1) (encode n ++ rest) = .ok (n, rest) := by
  induction left generalizing n with
  | zero =>
    have hn : n < 2 := h
    have hb : (UInt8.ofNat n).toNat = n := by rw [UInt8.toNat_ofNat']; omega
    rw [encode, if_pos (by omega)]
    simp only [List.singleton_append, decodeDigits, hb]
    rw [if_pos (by omega), if_neg (by omega)]
  | succ left ih =>
    by_cases hn : n < 128
    · have hb : (UInt8.ofNat n).toNat = n := by rw [UInt8.toNat_ofNat']; omega
      rw [encode, if_pos hn]
      simp only [List.singleton_append]
      rw [decodeDigits, hb, if_pos hn, if_neg (by omega)]
    · have hb : (UInt8.ofNat (n % 128 + 128)).toNat = n % 128 + 128 := by
        rw [UInt8.toNat_ofNat']; omega
      have hdiv : n / 128 < capacity left := Nat.div_lt_of_lt_mul h
      rw [encode, if_neg hn, List.cons_append, decodeDigits, hb, if_neg (by omega), ih hdiv]
      simp only
      congr 2
      omega

/-- A written number is read back, and nothing more is read. -/
theorem decode_encode {n : Nat} (rest : Bytes) (h : n < Bytes.capacity 8) :
    decode (encode n ++ rest) = .ok (n, rest) := by
  have hcap : capacity 9 = Bytes.capacity 8 := by decide
  exact decodeDigits_encode rest (hcap ▸ h)

end Varint

end Dataflow

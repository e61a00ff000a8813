import Mathlib.Algebra.Group.Nat.Defs
import Mathlib.Tactic.SplitIfs
import Dataflow.Checksum.Crc32

/-!
# What the checksum tells apart

The register is a vector over the field of two elements, and a shift is a linear map of it that can
be undone. Two byte strings of the same length that differ only within four consecutive bytes
therefore leave different registers: the four bytes fill the register once, and what comes behind
them only permutes its values.

* `Crc32.shift_injective`, `Crc32.fold_injective`: no two registers become the same.
* `Crc32.fold_word`: up to four bytes enter the register as one number.
* `Crc32.window_injective`: of the bytes in such a window, the register tells all.
* `Crc32.fold_trailer`: a byte string behind which its own checksum stands leaves a register that
  does not depend on the string.
-/

namespace Dataflow

namespace Bytes

theorem capacity_eq (width : Nat) : capacity width = 256 ^ width := by
  induction width with
  | zero => rfl
  | succ width ih => rw [capacity, ih, Nat.pow_succ']

theorem ofLittleEndian_lt_of_length {w : Bytes} {n : Nat} (h : w.length ≤ n) :
    ofLittleEndian w < 256 ^ n := by
  have hlt := ofLittleEndian_lt w
  rw [capacity_eq] at hlt
  exact Nat.lt_of_lt_of_le hlt (Nat.pow_le_pow_right (by decide) h)

end Bytes

namespace Crc32

/-! ## Shifts -/

/-- The lowest bit decides whether the polynomial is subtracted. -/
theorem shift_eq (r : UInt32) :
    shift r = (r >>> 1) ^^^ (if r.toBitVec.getLsbD 0 then polynomial else 0) := by
  have hlow : r &&& 1 = 1 ↔ r.toBitVec.getLsbD 0 = true := by
    rw [← UInt32.toBitVec_inj, UInt32.toBitVec_and]
    change r.toBitVec &&& 1#32 = 1#32 ↔ _
    rw [BitVec.and_one_eq_setWidth_ofBool_getLsbD]
    cases r.toBitVec.getLsbD 0 <;> decide
  unfold shift
  simp only [hlow]
  split_ifs <;> simp

theorem shift_xor (a b : UInt32) : shift (a ^^^ b) = shift a ^^^ shift b := by
  have hdrop : (a ^^^ b) >>> 1 = a >>> 1 ^^^ b >>> 1 := UInt32.shiftRight_xor
  simp only [shift_eq, UInt32.toBitVec_xor, BitVec.getLsbD_xor, hdrop]
  cases a.toBitVec.getLsbD 0 <;> cases b.toBitVec.getLsbD 0
  · simp
  · simp [UInt32.xor_assoc]
  · simp [UInt32.xor_assoc, UInt32.xor_comm polynomial]
  · have hcancel : polynomial ^^^ (b >>> 1 ^^^ polynomial) = b >>> 1 := by
      rw [UInt32.xor_comm, UInt32.xor_assoc, UInt32.xor_self, UInt32.xor_zero]
    simp [UInt32.xor_assoc, hcancel]

theorem eq_zero_of_shift {r : UInt32} (h : shift r = 0) : r = 0 := by
  rw [shift_eq, UInt32.xor_eq_zero_iff] at h
  have hhalf : (r >>> 1).toNat = r.toNat / 2 := by
    rw [UInt32.toNat_shiftRight]
    exact Nat.shiftRight_eq_div_pow _ _
  have hbound := r.toNat_lt
  split_ifs at h with hlow
  · -- the polynomial has the uppermost bit, which the shift has cleared
    have hpolynomial : (r >>> 1).toNat = 0xEDB88320 := congrArg UInt32.toNat h
    omega
  · have hzero : (r >>> 1).toNat = 0 := congrArg UInt32.toNat h
    have heven : r.toNat % 2 = 0 := by
      rw [BitVec.getLsbD, Nat.testBit_zero, decide_eq_true_eq] at hlow
      exact Nat.mod_two_ne_one.mp hlow
    apply UInt32.toNat_inj.mp
    change r.toNat = 0
    omega

theorem shift_injective {a b : UInt32} (h : shift a = shift b) : a = b := by
  rw [← UInt32.xor_eq_zero_iff]
  apply eq_zero_of_shift
  rw [shift_xor, h, UInt32.xor_self]

theorem shifts_xor (n : Nat) (a b : UInt32) : shifts n (a ^^^ b) = shifts n a ^^^ shifts n b := by
  induction n generalizing a b with
  | zero => rfl
  | succ n ih => rw [shifts, shift_xor, ih, shifts, shifts]

theorem shifts_injective (n : Nat) {a b : UInt32} (h : shifts n a = shifts n b) : a = b := by
  induction n generalizing a b with
  | zero => exact h
  | succ n ih => exact shift_injective (ih h)

theorem shifts_add (m n : Nat) (r : UInt32) : shifts n (shifts m r) = shifts (m + n) r := by
  induction m generalizing r with
  | zero => rw [shifts, Nat.zero_add]
  | succ m ih => rw [shifts, ih, Nat.add_right_comm, shifts]

theorem shift_double {n : Nat} (h : 2 * n < 2 ^ 32) :
    shift (UInt32.ofNat (2 * n)) = UInt32.ofNat n := by
  have hlow : (UInt32.ofNat (2 * n)).toBitVec.getLsbD 0 = false := by
    rw [BitVec.getLsbD, UInt32.toNat_toBitVec, UInt32.toNat_ofNat_of_lt' h, Nat.testBit_zero]
    simp
  have hn : n < 2 ^ 32 := by omega
  rw [shift_eq, hlow, if_neg (by decide), UInt32.xor_zero]
  apply UInt32.toNat_inj.mp
  rw [UInt32.toNat_shiftRight, UInt32.toNat_ofNat_of_lt' h, UInt32.toNat_ofNat_of_lt' hn]
  change (2 * n) >>> 1 = n
  rw [Nat.shiftRight_eq_div_pow]
  omega

/-- Where the low bits are clear, a shift only moves the others down. -/
theorem shifts_multiple (k : Nat) {n : Nat} (h : 2 ^ k * n < 2 ^ 32) :
    shifts k (UInt32.ofNat (2 ^ k * n)) = UInt32.ofNat n := by
  induction k with
  | zero => rw [shifts, Nat.pow_zero, Nat.one_mul]
  | succ k ih =>
    rw [Nat.pow_succ', Nat.mul_assoc] at h
    rw [shifts, Nat.pow_succ', Nat.mul_assoc, shift_double h, ih (by omega)]

/-! ## Bytes -/

theorem feed_injective {a b : UInt32} {x : UInt8} (h : feed a x = feed b x) : a = b :=
  (UInt32.xor_left_inj _).mp (shifts_injective 8 h)

/-- Bytes permute the values of the register. -/
theorem fold_injective (bytes : Bytes) {a b : UInt32}
    (h : bytes.foldl feed a = bytes.foldl feed b) : a = b := by
  induction bytes generalizing a b with
  | nil => exact h
  | cons x bytes ih => exact feed_injective (ih h)

/-- A byte and a number above it, as one number. -/
theorem byte_xor (x : UInt8) {n : Nat} (h : 256 * n < 2 ^ 32) :
    x.toUInt32 ^^^ UInt32.ofNat (256 * n) = UInt32.ofNat (x.toNat + 256 * n) := by
  have hx := x.toNat_lt
  apply UInt32.toNat_inj.mp
  rw [UInt32.toNat_xor, UInt8.toNat_toUInt32, UInt32.toNat_ofNat_of_lt' h,
    UInt32.toNat_ofNat_of_lt' (by change x.toNat + 256 * n < 2 ^ 32; omega)]
  have hhigh : (x.toNat ^^^ 256 * n) / 2 ^ 8 = n := by
    rw [Nat.xor_div_two_pow, Nat.div_eq_of_lt hx, Nat.zero_xor]
    omega
  have hlow : (x.toNat ^^^ 256 * n) % 2 ^ 8 = x.toNat := by
    rw [Nat.xor_mod_two_pow, Nat.mod_eq_of_lt hx, Nat.mul_mod_right, Nat.xor_zero]
  omega

/-- Up to four bytes enter the register as one number, before all shifts. -/
theorem fold_word (r : UInt32) {w : Bytes} (h : w.length ≤ 4) :
    w.foldl feed r = shifts (8 * w.length) (r ^^^ UInt32.ofNat (Bytes.ofLittleEndian w)) := by
  induction w generalizing r with
  | nil => exact (UInt32.xor_zero).symm
  | cons x w ih =>
    rw [List.length_cons] at h
    have hrest : Bytes.ofLittleEndian w < 2 ^ 24 :=
      Bytes.ofLittleEndian_lt_of_length (Nat.le_of_succ_le_succ h)
    have hword : 256 * Bytes.ofLittleEndian w < 2 ^ 32 := by omega
    have hmoved : UInt32.ofNat (Bytes.ofLittleEndian w) =
        shifts 8 (UInt32.ofNat (256 * Bytes.ofLittleEndian w)) := (shifts_multiple 8 hword).symm
    rw [List.foldl_cons, ih _ (by omega), feed, hmoved, ← shifts_xor,
      shifts_add, UInt32.xor_assoc, byte_xor x hword, List.length_cons, Nat.mul_succ, Nat.add_comm]
    rfl

/-- The register tells the bytes of a window of up to four, if it was the same before them. -/
theorem window_injective {r : UInt32} {w w' : Bytes} (hlen : w.length = w'.length)
    (hword : w.length ≤ 4) (h : w.foldl feed r = w'.foldl feed r) : w = w' := by
  have hword' : w'.length ≤ 4 := hlen ▸ hword
  rw [fold_word r hword, fold_word r hword', hlen] at h
  have hnumber : UInt32.ofNat (Bytes.ofLittleEndian w) = UInt32.ofNat (Bytes.ofLittleEndian w') :=
    (UInt32.xor_right_inj _).mp (shifts_injective _ h)
  have hsame := congrArg UInt32.toNat hnumber
  rw [UInt32.toNat_ofNat_of_lt' (Bytes.ofLittleEndian_lt_of_length hword),
    UInt32.toNat_ofNat_of_lt' (Bytes.ofLittleEndian_lt_of_length hword')] at hsame
  rw [← Bytes.littleEndian_ofLittleEndian w, ← Bytes.littleEndian_ofLittleEndian w', hlen, hsame]

/-- Behind a byte string and its checksum the register does not depend on the string. -/
theorem fold_trailer (bytes : Bytes) :
    (bytes ++ Bytes.littleEndian 4 (crc32 bytes).toNat).foldl feed full = shifts 32 full := by
  have hread : Bytes.ofLittleEndian (Bytes.littleEndian 4 (crc32 bytes).toNat) =
      (crc32 bytes).toNat := Bytes.ofLittleEndian_littleEndian (crc32 bytes).toNat_lt
  rw [List.foldl_append, fold_word _ (by simp), hread, Bytes.length_littleEndian,
    UInt32.ofNat_toNat, crc32, ← UInt32.xor_assoc, UInt32.xor_self, UInt32.zero_xor]

end Crc32

end Dataflow

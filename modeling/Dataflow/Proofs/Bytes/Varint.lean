import Dataflow.Bytes.Varint

/-!
# What is read as a number of variable length

A reader takes any digits that end with an unmarked one, and not only those that a number is written
in: there may be zeros behind the digits that count. It goes through the bytes once, from front to
back. So an answer other than that the bytes have ended stays the same with any bytes behind them,
and if they have ended, there are bytes with which they go on to a number.

* `Varint.Digits`, `Varint.Spells`: the byte strings that stand for a number.
* `Varint.decode_eq_ok_iff`: these are what is read.
* `Varint.decode_endOfBuffer`, `Varint.decode_badVarint`: what an error says about longer strings.
* `Varint.Digits.length_encode_le`: no byte string for a number is shorter than the written one.
-/

namespace Dataflow.Varint

/-! ## Digits -/

/-- The digits of a number in base 128, least significant first. All but the last are marked, and
the last may be zero. -/
inductive Digits : Bytes → Nat → Prop
  | last {b : UInt8} (hb : b.toNat < 128) : Digits [b] b.toNat
  | more {b : UInt8} {rest : Bytes} {n : Nat} (hb : 128 ≤ b.toNat) (hrest : Digits rest n) :
    Digits (b :: rest) (b.toNat - 128 + 128 * n)

/-- A byte string stands for a number: its digits, ten at most, for a number of 64 bits. -/
structure Spells (used : Bytes) (n : Nat) : Prop where
  digits : Digits used n
  length_le : used.length ≤ maxLength
  lt_capacity : n < Bytes.capacity 8

theorem Digits.length_pos {used : Bytes} {n : Nat} (h : Digits used n) : 0 < used.length := by
  cases h <;> exact Nat.succ_pos _

theorem digits_encode (n : Nat) : Digits (encode n) n := by
  induction n using Nat.strongRecOn with
  | ind n ih =>
    rw [encode]
    by_cases hn : n < 128
    · have hb : (UInt8.ofNat n).toNat = n := by rw [UInt8.toNat_ofNat']; omega
      have hlast : Digits [UInt8.ofNat n] (UInt8.ofNat n).toNat := .last (by omega)
      rw [if_pos hn]
      rwa [hb] at hlast
    · have hb : (UInt8.ofNat (n % 128 + 128)).toNat = n % 128 + 128 := by
        rw [UInt8.toNat_ofNat']; omega
      have hmore : Digits (UInt8.ofNat (n % 128 + 128) :: encode (n / 128))
          ((UInt8.ofNat (n % 128 + 128)).toNat - 128 + 128 * (n / 128)) :=
        .more (by omega) (ih _ (by omega))
      have hvalue : n % 128 + 128 - 128 + 128 * (n / 128) = n := by omega
      rw [if_neg hn]
      rwa [hb, hvalue] at hmore

/-- No digits of a number are fewer than those it is written in. -/
theorem Digits.length_encode_le {used : Bytes} {n : Nat} (h : Digits used n) :
    (encode n).length ≤ used.length := by
  induction h with
  | last hb =>
    rw [encode, if_pos hb]
    exact Nat.le_refl 1
  | @more b rest n hb hrest ih =>
    have hlt := b.toNat_lt
    rw [encode]
    split
    · exact Nat.succ_pos _
    · have hdiv : (b.toNat - 128 + 128 * n) / 128 = n := by omega
      rw [List.length_cons, List.length_cons, hdiv]
      exact Nat.succ_le_succ ih

theorem capacity_pos (digits : Nat) : 0 < capacity digits := by
  induction digits with
  | zero => exact Nat.succ_pos 1
  | succ digits ih =>
    rw [capacity]
    omega

theorem length_encode_le {left n : Nat} (h : n < capacity left) :
    (encode n).length ≤ left + 1 := by
  induction left generalizing n with
  | zero =>
    have hn : n < 2 := h
    rw [encode, if_pos (by omega)]
    exact Nat.le_refl 1
  | succ left ih =>
    rw [encode]
    split
    · exact Nat.succ_pos _
    · have hdiv : n / 128 < capacity left := Nat.div_lt_of_lt_mul h
      exact Nat.succ_le_succ (ih hdiv)

theorem capacity_digits : capacity 9 = Bytes.capacity 8 := by decide

theorem spells_encode {n : Nat} (h : n < Bytes.capacity 8) : Spells (encode n) n where
  digits := digits_encode n
  length_le := length_encode_le (capacity_digits ▸ h)
  lt_capacity := h

/-! ## Reading -/

theorem decodeDigits_of_digits {used : Bytes} {n left : Nat} (h : Digits used n)
    (hlength : used.length ≤ left + 1) (hn : n < capacity left) (rest : Bytes) :
    decodeDigits (left + 1) (used ++ rest) = .ok (n, rest) := by
  induction h generalizing left with
  | @last b hb =>
    have hfits : ¬(left = 0 ∧ 1 < b.toNat) := by
      rintro ⟨rfl, hlarge⟩
      have hsmall : b.toNat < 2 := hn
      omega
    rw [List.singleton_append, decodeDigits, if_pos hb, if_neg hfits]
  | @more b used n hb hused ih =>
    have hpos := hused.length_pos
    rw [List.length_cons] at hlength
    obtain ⟨left, rfl⟩ : ∃ m, left = m + 1 := ⟨left - 1, by omega⟩
    have hhigh : n < capacity left := by
      rw [capacity] at hn
      omega
    rw [List.cons_append, decodeDigits, if_neg (by omega), ih (by omega) hhigh]

/-- What is read are the digits of a number, of which the last may be a single bit. -/
theorem digits_of_decodeDigits {left n : Nat} {bytes rest : Bytes}
    (h : decodeDigits (left + 1) bytes = .ok (n, rest)) :
    ∃ used, bytes = used ++ rest ∧ Digits used n ∧ used.length ≤ left + 1 ∧ n < capacity left := by
  induction left generalizing bytes n with
  | zero =>
    cases bytes with
    | nil => cases h
    | cons b bytes =>
      rw [decodeDigits] at h
      split at h
      · rename_i hb
        split at h
        · cases h
        · rename_i hfits
          cases h
          have hsmall : b.toNat < 2 := by omega
          exact ⟨[b], rfl, .last hb, Nat.le_refl 1, hsmall⟩
      · cases h
  | succ left ih =>
    cases bytes with
    | nil => cases h
    | cons b bytes =>
      rw [decodeDigits] at h
      split at h
      · rename_i hb
        rw [if_neg (by omega)] at h
        cases h
        have hpos := capacity_pos left
        refine ⟨[b], rfl, .last hb, by simp, ?_⟩
        rw [capacity]
        omega
      · rename_i hb
        split at h
        · cases h
        · rename_i high rest' hhigh
          cases h
          obtain ⟨used, rfl, hused, hlength, hlt⟩ := ih hhigh
          have hbyte := b.toNat_lt
          refine ⟨b :: used, rfl, .more (by omega) hused, Nat.succ_le_succ hlength, ?_⟩
          rw [capacity]
          omega

/-- A number is read if and only if the bytes start with digits that stand for it, and what is left
are the bytes behind these. -/
theorem decode_eq_ok_iff {bytes rest : Bytes} {n : Nat} :
    decode bytes = .ok (n, rest) ↔ ∃ used, bytes = used ++ rest ∧ Spells used n := by
  constructor
  · intro h
    obtain ⟨used, hbytes, hdigits, hlength, hlt⟩ := digits_of_decodeDigits h
    exact ⟨used, hbytes, hdigits, hlength, capacity_digits ▸ hlt⟩
  · rintro ⟨used, rfl, hdigits, hlength, hlt⟩
    exact decodeDigits_of_digits hdigits hlength (capacity_digits.symm ▸ hlt) rest

theorem Spells.decode {used : Bytes} {n : Nat} (h : Spells used n) (rest : Bytes) :
    Varint.decode (used ++ rest) = .ok (n, rest) :=
  decode_eq_ok_iff.mpr ⟨used, rfl, h⟩

/-! ## Errors -/

theorem decodeDigits_endOfBuffer {left : Nat} {bytes : Bytes}
    (h : decodeDigits left bytes = .error .endOfBuffer) :
    ∃ more n, decodeDigits left (bytes ++ more) = .ok (n, []) := by
  induction left generalizing bytes with
  | zero => cases h
  | succ left ih =>
    cases bytes with
    | nil =>
      refine ⟨[0], 0, ?_⟩
      rw [List.nil_append, decodeDigits, if_pos (by decide), if_neg (by simp)]
      rfl
    | cons b bytes =>
      rw [decodeDigits] at h
      split at h
      · split at h <;> cases h
      · rename_i hb
        split at h
        · rename_i e hrest
          cases h
          obtain ⟨more, n, hmore⟩ := ih hrest
          refine ⟨more, b.toNat - 128 + 128 * n, ?_⟩
          rw [List.cons_append, decodeDigits, if_neg hb, hmore]
        · cases h

theorem decodeDigits_badVarint {left : Nat} {bytes : Bytes}
    (h : decodeDigits left bytes = .error .badVarint) (more : Bytes) :
    decodeDigits left (bytes ++ more) = .error .badVarint := by
  induction left generalizing bytes with
  | zero => rfl
  | succ left ih =>
    cases bytes with
    | nil => cases h
    | cons b bytes =>
      rw [decodeDigits] at h
      rw [List.cons_append, decodeDigits]
      split at h
      · rename_i hb
        rw [if_pos hb]
        split at h
        · rename_i hlarge
          rw [if_pos hlarge]
        · cases h
      · rename_i hb
        rw [if_neg hb]
        split at h
        · rename_i e hrest
          cases h
          rw [ih hrest]
        · cases h

/-- Where the bytes have ended inside a number, they can go on to one. -/
theorem decode_endOfBuffer {bytes : Bytes} (h : decode bytes = .error .endOfBuffer) :
    ∃ more n, Spells (bytes ++ more) n := by
  obtain ⟨more, n, hmore⟩ := decodeDigits_endOfBuffer h
  obtain ⟨used, hused, hspells⟩ := decode_eq_ok_iff.mp hmore
  rw [List.append_nil] at hused
  exact ⟨more, n, hused ▸ hspells⟩

/-- What is no number stays none, whatever follows. -/
theorem decode_badVarint {bytes : Bytes} (h : decode bytes = .error .badVarint) (more : Bytes) :
    decode (bytes ++ more) = .error .badVarint :=
  decodeDigits_badVarint h more

end Dataflow.Varint

import Mathlib.Analysis.SpecialFunctions.Log.Base
import Dataflow.Proofs.RedBlack.Commands

/-!
# The height of a red-black tree

A balanced shape has at least as many nodes as its black height calls for, and at most every second
node on a way down is red. So the height of a tree is at most twice the logarithm of its size.

* `Shape.Balanced.height_le`, `Shape.Balanced.two_pow_le`: the black height bounds the height from
  above and the size from below.
* `Tree.Linked.heightFrom_eq`: what an arena computes is the height of the shape it stands for.
* `Tree.run_height`: the bounds for the trees that commands build.
-/

namespace Dataflow.RedBlack

variable {K V : Type}

namespace Shape

variable {s : Shape K V} {n : Nat}

/-- A way down alternates at most, and a missing child counts as one of the `n` black nodes. -/
theorem Balanced.height_le (h : s.Balanced n) :
    s.height + 2 ≤ 2 * n + if s.color = .red then 1 else 0 := by
  induction h with
  | leaf => exact Nat.le_refl 2
  | red hl hr _ _ ihl ihr =>
    rw [hl, if_neg (by decide)] at ihl
    rw [hr, if_neg (by decide)] at ihr
    rw [height, color, if_pos rfl]
    omega
  | @black n l r i e _ _ ihl ihr =>
    -- A red child has one node more than a black one, and the black node above it pays for it.
    have hchild : ∀ s : Shape K V, s.height + 2 ≤ 2 * n + (if s.color = .red then 1 else 0) →
        s.height + 1 ≤ 2 * n := by
      intro s hs
      split at hs <;> omega
    have hl := hchild l ihl
    have hr := hchild r ihr
    rw [height, color, if_neg (by decide)]
    omega

theorem Balanced.two_pow_le (h : s.Balanced n) : 2 ^ n ≤ 2 * (s.size + 1) := by
  induction h with
  | leaf => exact Nat.le_refl 2
  | red _ _ _ _ ihl _ =>
    rw [size]
    omega
  | black _ _ ihl ihr =>
    rw [size, Nat.pow_succ]
    omega

/-- A shape of size `m` has at most `m + 1` missing children. -/
theorem Balanced.two_pow_pred_le (h : s.Balanced n) : 2 ^ (n - 1) ≤ s.size + 1 := by
  obtain ⟨n, rfl⟩ : ∃ k, n = k + 1 := ⟨n - 1, by have := h.pos; omega⟩
  have hpow := h.two_pow_le
  rw [Nat.pow_succ] at hpow
  rw [Nat.add_sub_cancel]
  omega

theorem Balanced.two_pow_height_le (h : s.Balanced n) (hblack : s.color = .black) :
    2 ^ s.height ≤ (s.size + 1) ^ 2 := by
  have hheight := h.height_le
  rw [hblack, if_neg (by decide)] at hheight
  calc 2 ^ s.height
      ≤ 2 ^ ((n - 1) * 2) := Nat.pow_le_pow_right (by decide) (by omega)
    _ = (2 ^ (n - 1)) ^ 2 := Nat.pow_mul ..
    _ ≤ (s.size + 1) ^ 2 := Nat.pow_le_pow_left h.two_pow_pred_le 2

end Shape

namespace Tree

variable {t : Tree K V} {s : Shape K V}

theorem Linked.heightFrom_eq {parent : Link} {fuel : Nat} (h : t.Linked parent s)
    (hfuel : s.size ≤ fuel) : t.heightFrom fuel s.root = s.height := by
  induction s generalizing parent fuel with
  | leaf => cases fuel <;> rfl
  | node c l i e r ihl ihr =>
    obtain ⟨fuel, rfl⟩ : ∃ m, fuel = m + 1 := ⟨fuel - 1, by rw [Shape.size] at hfuel; omega⟩
    rw [Shape.size] at hfuel
    obtain ⟨hnode, hl, hr⟩ := h
    rw [Shape.root, heightFrom, hnode]
    dsimp only
    rw [ihl hl (by omega), ihr hr (by omega)]
    rfl

theorem Focused.height_eq {spare : Multiset (Cell K V)} (h : t.Focused [] s spare) :
    t.height = s.height := by
  rw [height, h.root_eq]
  exact h.linked.heightFrom_eq (Nat.le_trans (Nat.le_add_left _ _) h.length_add_size_le)

variable [Ord K] [Std.TransOrd K]

/-- Whatever commands a tree has been given, its height is at most twice the logarithm of its size,
and the black height that the check finds is at most one more than the logarithm. -/
theorem run_height (entries : List (K × V)) (commands : List (Command K V)) :
    let t := ((ofList entries).run commands).2
    ∃ n s, t.Sound n s ∧ t.check = .ok n ∧ t.height = s.height ∧
      (t.height : ℝ) ≤ 2 * Real.logb 2 (t.size + 1) ∧ 2 ^ t.height ≤ (t.size + 1) ^ 2 ∧
      2 ^ (n - 1) ≤ t.size + 1 := by
  intro t
  obtain ⟨-, h⟩ := (represents_ofList entries).run commands
  obtain ⟨n, s, hs, -⟩ := h.exists_sound
  have hheight : 2 ^ t.height ≤ (t.size + 1) ^ 2 := by
    rw [hs.focused.height_eq, ← hs.size_eq]
    exact hs.balanced.two_pow_height_le hs.black
  have hlog : (t.height : ℝ) ≤ Real.logb 2 (((t.size + 1) ^ 2 : ℕ) : ℝ) := by
    rw [Real.le_logb_iff_rpow_le one_lt_two (by positivity), Real.rpow_natCast]
    exact_mod_cast hheight
  refine ⟨n, s, hs, hs.check, hs.focused.height_eq, ?_, hheight, ?_⟩
  · rwa [Nat.cast_pow, Real.logb_pow, Nat.cast_ofNat, Nat.cast_succ] at hlog
  · rw [← hs.size_eq]
    exact hs.balanced.two_pow_pred_le

/-- Keys that ascend, where the repairs have the most to do. -/
theorem run_height_ascending :
    let t := ((ofList [(1, 'a'), (2, 'b'), (3, 'c'), (4, 'd'), (5, 'e'), (6, 'f')]).run
      [.remove 1]).2
    t.height = 3 ∧ (t.height : ℝ) ≤ 2 * Real.logb 2 (t.size + 1) ∧ 2 ^ 3 ≤ (t.size + 1) ^ 2 ∧
      ∃ n, t.check = .ok n ∧ 2 ^ (n - 1) ≤ t.size + 1 := by
  intro t
  have hheight : t.height = 3 := by decide
  obtain ⟨n, s, -, hcheck, -, hlog, hpow, hblack⟩ :=
    run_height [(1, 'a'), (2, 'b'), (3, 'c'), (4, 'd'), (5, 'e'), (6, 'f')] [.remove 1]
  exact ⟨hheight, hlog, hheight ▸ hpow, n, hcheck, hblack⟩

end Tree

end Dataflow.RedBlack

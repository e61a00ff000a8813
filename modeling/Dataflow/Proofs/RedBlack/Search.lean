import Dataflow.Proofs.RedBlack.Arena
import Dataflow.Proofs.SortedMap

/-!
# Searching an arena

A search ends at the node of the key or at the place where it is missing. Either way it cuts the
entries of the tree where the key belongs.

* `Located`: what a search may find in a shape.
* `Tree.Focused.search`: it finds it.
-/

namespace Dataflow.RedBlack

open Std

variable {K V : Type} [Ord K]

/-- The place of a key in a shape. -/
inductive Located (k : K) (s : Shape K V) : Tree.Place → Prop
  | present {path : Path K V} {c : Color} {l r : Shape K V} {i : Nat} {e : K × V}
      (hs : s = path.fill (.node c l i e r)) (he : compare k e.1 = .eq)
      (hcut : SortedMap.Cut k (path.before ++ l.toList) (r.toList ++ path.after)) :
      Located k s (.present i)
  | vacant {path : Path K V} (hs : s = path.fill .leaf)
      (hcut : SortedMap.Cut k path.before path.after) : Located k s (.vacant path.spot)

namespace Tree

variable [TransOrd K] {t : Tree K V} {path : Path K V} {s : Shape K V}
  {spare : Multiset (Cell K V)} {k : K}

omit [TransOrd K] in
/-- The entries on both sides of a node that a search visits. -/
theorem pairwise_fill {c : Color} {l r : Shape K V} {i : Nat} {e : K × V}
    (hsorted : SortedMap.Sorted ⟨(path.fill (.node c l i e r)).toList⟩) :
    (∀ a ∈ l.toList, compare a.1 e.1 = .lt) ∧ ∀ a ∈ r.toList, compare e.1 a.1 = .lt := by
  rw [SortedMap.Sorted, Path.toList_fill, Shape.toList] at hsorted
  have hnode := (List.pairwise_append.mp (List.pairwise_append.mp hsorted).2.1).1
  obtain ⟨-, hright, hleft⟩ := List.pairwise_append.mp hnode
  exact ⟨fun a ha => hleft a ha e List.mem_cons_self, (List.pairwise_cons.mp hright).1⟩

theorem Focused.searchFrom {fuel : Nat} (h : t.Focused path s spare)
    (hsorted : SortedMap.Sorted ⟨(path.fill s).toList⟩)
    (hcut : SortedMap.Cut k path.before path.after) (hfuel : s.size ≤ fuel) :
    ∃ place, t.searchFrom k fuel s.root path.spot = some place ∧
      Located k (path.fill s) place := by
  induction s generalizing path fuel with
  | leaf => exact ⟨_, by cases fuel <;> rfl, .vacant rfl hcut⟩
  | node c l i e r ihl ihr =>
    obtain ⟨fuel, rfl⟩ : ∃ m, fuel = m + 1 := ⟨fuel - 1, by rw [Shape.size] at hfuel; omega⟩
    have hl : t.Focused (⟨.left, c, i, e, r⟩ :: path) l spare := focused_cons.mpr h
    have hr : t.Focused (⟨.right, c, i, e, l⟩ :: path) r spare := focused_cons.mpr h
    obtain ⟨hleft, hright⟩ := pairwise_fill hsorted
    rw [Shape.root, Tree.searchFrom, hl.crumb]
    rw [Shape.size] at hfuel
    simp only [Option.bind_eq_bind, Option.bind_some, Node.facing]
    cases hcompare : compare k e.1 with
    | lt =>
      refine ihl hl hsorted ⟨hcut.before, fun a ha => ?_⟩ (by omega)
      rcases List.mem_cons.mp ha with rfl | ha
      · exact hcompare
      · rcases List.mem_append.mp ha with ha | ha
        · exact TransCmp.lt_trans hcompare (hright a ha)
        · exact hcut.after a ha
    | gt =>
      refine ihr hr hsorted ⟨fun a ha => ?_, hcut.after⟩ (by omega)
      rcases List.mem_append.mp ha with ha | ha
      · exact hcut.before a ha
      · rcases List.mem_append.mp ha with ha | ha
        · exact TransCmp.gt_trans hcompare (OrientedCmp.gt_of_lt (hleft a ha))
        · rw [List.mem_singleton.mp ha]
          exact hcompare
    | eq =>
      refine ⟨_, rfl, .present rfl hcompare ⟨fun a ha => ?_, fun a ha => ?_⟩⟩
      · rcases List.mem_append.mp ha with ha | ha
        · exact hcut.before a ha
        · rw [TransCmp.congr_left hcompare]
          exact OrientedCmp.gt_of_lt (hleft a ha)
      · rcases List.mem_append.mp ha with ha | ha
        · rw [TransCmp.congr_left hcompare]
          exact hright a ha
        · exact hcut.after a ha

/-- A search finds the place of a key. -/
theorem Focused.search (h : t.Focused [] s spare) (hsorted : SortedMap.Sorted ⟨s.toList⟩) (k : K) :
    ∃ place, t.search k = some place ∧ Located k s place := by
  have hcut : SortedMap.Cut k (Path.before ([] : Path K V)) (Path.after []) :=
    ⟨by simp [Path.before], by simp [Path.after]⟩
  have hsize : s.size ≤ t.size := Nat.le_trans (Nat.le_add_left _ _) h.length_add_size_le
  obtain ⟨place, hsearch, hplace⟩ := h.searchFrom hsorted hcut hsize
  refine ⟨place, ?_, hplace⟩
  rw [Tree.search, h.root_eq]
  exact hsearch

end Tree

end Dataflow.RedBlack

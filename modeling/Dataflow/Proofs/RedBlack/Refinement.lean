import Dataflow.Proofs.RedBlack.Check
import Dataflow.Proofs.RedBlack.Compact
import Dataflow.Proofs.RedBlack.Detach
import Dataflow.Proofs.RedBlack.Insert
import Dataflow.Proofs.RedBlack.Search

/-!
# Red-black trees stand for sorted maps

What a tree answers is what the map of its entries answers, and what an operation makes of the tree
stands for what it makes of the map. No step of an operation fails.

* `Tree.Represents`: the tree stands for a map.
* `Represents.find?_eq`, `Represents.min?_eq`, `Represents.toList_eq`: what is read is the same.
* `Represents.insert`, `Represents.modify`, `Represents.erase`: so is what is written.
* `Represents.exists_sound`: the arena of such a tree is sound.
-/

namespace Dataflow.RedBlack.Tree

open Std

variable {K V : Type} [Ord K] {t : Tree K V} {m : SortedMap K V}

/-- The tree stands for a map: it is balanced and holds the entries of the map in their order, and
no slot of its arena is spare. -/
structure Represents (t : Tree K V) (m : SortedMap K V) : Prop where
  holds : t.HoldsBalanced 0 m.entries
  sorted : m.Sorted

theorem represents_empty : (empty : Tree K V).Represents .empty :=
  ⟨⟨.leaf, 1, ⟨rfl, rfl⟩, .leaf, rfl, rfl⟩, SortedMap.sorted_empty⟩

/-- The arena of a tree that stands for a map is sound. -/
theorem Represents.exists_sound (h : t.Represents m) :
    ∃ n s, t.Sound n s ∧ s.toList = m.entries := by
  obtain ⟨⟨s, n, hs, hn, hblack, hlist⟩, hsorted⟩ := h
  refine ⟨n, s, ⟨hs.root_eq, hs.linked, hs.slots_perm, hblack, hn, ?_⟩, hlist⟩
  rw [hlist]
  exact hsorted

namespace Represents

/-! ## Reading -/

theorem toList_eq (h : t.Represents m) : t.toList = m.toList := by
  obtain ⟨⟨s, n, hs, -, -, hlist⟩, -⟩ := h
  exact hs.toList_eq.trans hlist

theorem keys_eq (h : t.Represents m) : t.keys = m.keys :=
  congrArg (List.map Prod.fst) h.toList_eq

theorem values_eq (h : t.Represents m) : t.values = m.values :=
  congrArg (List.map Prod.snd) h.toList_eq

theorem min?_eq (h : t.Represents m) : t.min? = m.min? := by
  obtain ⟨⟨s, n, hs, -, -, hlist⟩, -⟩ := h
  exact hs.min?_eq.trans (congrArg List.head? hlist)

theorem max?_eq (h : t.Represents m) : t.max? = m.max? := by
  obtain ⟨⟨s, n, hs, -, -, hlist⟩, -⟩ := h
  exact hs.max?_eq.trans (congrArg List.getLast? hlist)

theorem size_eq (h : t.Represents m) : t.size = m.size := by
  obtain ⟨n, s, hs, hlist⟩ := h.exists_sound
  rw [SortedMap.size, ← hlist, Shape.length_toList, hs.size_eq]

theorem isEmpty_eq (h : t.Represents m) : t.isEmpty = m.isEmpty := by
  have hsize : t.nodes.size = m.entries.length := h.size_eq
  rw [isEmpty, Array.isEmpty, hsize, SortedMap.isEmpty]
  cases m.entries <;> rfl

variable [TransOrd K]

/-- A search for a key in the tree. -/
theorem located (h : t.Represents m) (k : K) :
    ∃ s n place, t.Focused [] s 0 ∧ s.Balanced n ∧ s.color = .black ∧ m.entries = s.toList ∧
      t.search k = some place ∧ Located k s place := by
  obtain ⟨⟨s, n, hs, hn, hblack, hlist⟩, hsorted⟩ := h
  obtain ⟨place, hsearch, hplace⟩ := hs.search (hlist ▸ hsorted) k
  exact ⟨s, n, place, hs, hn, hblack, hlist.symm, hsearch, hplace⟩

theorem find?_eq (h : t.Represents m) (k : K) : t.find? k = m.find? k := by
  obtain ⟨s, n, place, hs, -, -, hlist, hsearch, hplace⟩ := h.located k
  rw [Tree.find?, hsearch]
  cases hplace with
  | vacant hfill hcut =>
    rw [hfill, Path.toList_fill_leaf] at hlist
    rw [hcut.find?_vacant hlist]
  | present hfill he hcut =>
    subst hfill
    rw [Path.toList_fill_node] at hlist
    rw [hcut.find?_present he hlist]
    dsimp only
    rw [node?_of_cells (focused_fill.mpr hs).cells_node]
    rfl

theorem get?_eq (h : t.Represents m) (k : K) : t.get? k = m.get? k := by
  rw [Tree.get?, h.find?_eq, SortedMap.get?]

theorem contains_eq (h : t.Represents m) (k : K) : t.contains k = m.contains k := by
  rw [Tree.contains, h.find?_eq, SortedMap.contains]

/-! ## Writing -/

/-- Insertion takes all its steps. -/
theorem insert?_eq (h : t.Represents m) (k : K) (v : V) :
    ∃ t', t.insert? k v = some (m.get? k, t') ∧ t'.Represents (m.insert k v) := by
  obtain ⟨s, n, place, hs, hn, hblack, hlist, hsearch, hplace⟩ := h.located k
  have hsorted := SortedMap.sorted_insert h.sorted k v
  cases hplace with
  | vacant hfill hcut =>
    subst hfill
    rw [Path.toList_fill_leaf] at hlist
    obtain ⟨t', hstep, h'⟩ := (focused_fill.mpr hs).insert_vacant hn hblack k v
    obtain ⟨t₁, hattach, hrepair⟩ := Option.bind_eq_some_iff.mp hstep
    rw [← hcut.insert_vacant hlist] at h'
    refine ⟨t', ?_, h', hsorted⟩
    simp [Tree.insert?, hsearch, hattach, hrepair, hcut.get?_vacant hlist]
  | @present path c l r i e hfill he hcut =>
    subst hfill
    rw [Path.toList_fill_node] at hlist
    have hnode := focused_fill.mpr hs
    obtain ⟨t', hupdate, h'⟩ := hnode.setValue v
    obtain ⟨n', hn', hblack'⟩ := Path.balanced_fill_relabel hn hblack i (e.1, v)
    refine ⟨t', ?_, ⟨_, n', focused_fill.mp h', hn', hblack', ?_⟩, hsorted⟩
    · simp [Tree.insert?, hsearch, node?_of_cells hnode.cells_node, hupdate,
        hcut.get?_present he hlist]
    · rw [hcut.insert_present he hlist, Path.toList_fill_node]

theorem insert (h : t.Represents m) (k : K) (v : V) :
    (t.insert k v).1 = m.get? k ∧ (t.insert k v).2.Represents (m.insert k v) := by
  obtain ⟨t', hinsert, h'⟩ := h.insert?_eq k v
  rw [Tree.insert, hinsert]
  exact ⟨rfl, h'⟩

theorem modify (h : t.Represents m) (k : K) (f : V → V) :
    (t.modify k f).1 = (m.get? k).map f ∧ (t.modify k f).2.Represents (m.modify k f) := by
  obtain ⟨s, n, place, hs, hn, hblack, hlist, hsearch, hplace⟩ := h.located k
  have hsorted := SortedMap.sorted_modify h.sorted k f
  rw [Tree.modify, hsearch]
  cases hplace with
  | vacant hfill hcut =>
    rw [hfill, Path.toList_fill_leaf] at hlist
    rw [hcut.get?_vacant hlist, hcut.modify_vacant hlist]
    exact ⟨rfl, h⟩
  | @present path c l r i e hfill he hcut =>
    subst hfill
    rw [Path.toList_fill_node] at hlist
    have hnode := focused_fill.mpr hs
    obtain ⟨t', hupdate, h'⟩ := hnode.setValue (f e.2)
    obtain ⟨-, htree⟩ := Option.ite_none_right_eq_some.mp hupdate
    obtain rfl := Option.some.inj htree
    obtain ⟨n', hn', hblack'⟩ := Path.balanced_fill_relabel hn hblack i (e.1, f e.2)
    dsimp only
    rw [node?_of_cells hnode.cells_node, hcut.get?_present he hlist]
    refine ⟨rfl, ⟨_, n', focused_fill.mp h', hn', hblack', ?_⟩, hsorted⟩
    rw [hcut.modify_present he hlist, Path.toList_fill_node]

/-- Removal takes all its steps. -/
theorem erase?_eq (h : t.Represents m) (k : K) :
    ∃ t', t.erase? k = some (m.find? k, t') ∧ t'.Represents (m.erase k) := by
  obtain ⟨s, n, place, hs, hn, hblack, hlist, hsearch, hplace⟩ := h.located k
  have hsorted := SortedMap.sorted_erase h.sorted k
  rw [Tree.erase?, hsearch]
  cases hplace with
  | vacant hfill hcut =>
    rw [hfill, Path.toList_fill_leaf] at hlist
    rw [hcut.find?_vacant hlist, hcut.erase_vacant hlist]
    exact ⟨t, rfl, h⟩
  | present hfill he hcut =>
    subst hfill
    rw [Path.toList_fill_node] at hlist
    obtain ⟨t₁, nz, hremove, hentry, s₁, n₁, h₁, hn₁, hblack₁, hlist₁⟩ :=
      (focused_fill.mpr hs).removeNode hn hblack
    rw [add_zero] at h₁
    obtain ⟨t', hcompact, -, h'⟩ := h₁.compact
    refine ⟨t', ?steps, ⟨_, n₁, h', hn₁.rename _, ?black, ?entries⟩, hsorted⟩
    case steps => simp [hremove, hcompact, hentry, hcut.find?_present he hlist]
    case black => rw [Shape.color_rename, hblack₁]
    case entries =>
      rw [Shape.toList_rename, hlist₁, hcut.erase_present he hlist, List.append_assoc]

theorem erase (h : t.Represents m) (k : K) :
    (t.erase k).1 = m.find? k ∧ (t.erase k).2.Represents (m.erase k) := by
  obtain ⟨t', herase, h'⟩ := h.erase?_eq k
  rw [Tree.erase, herase]
  exact ⟨rfl, h'⟩

end Represents

end Dataflow.RedBlack.Tree

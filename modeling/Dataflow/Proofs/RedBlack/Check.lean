import Dataflow.Proofs.RedBlack.Walk
import Dataflow.RedBlack.Violation
import Dataflow.SortedMap

/-!
# Sound arenas pass the check

An arena is sound if it stands for a balanced shape with a black root and ascending keys, and has
no node besides those of the shape.

* `Shape.slots`, `Tree.Linked`: the slots of a shape, and what it says of the nodes in them.
* `Tree.Holds`: an arena holds a shape, and some of its slots are spare.
* `Tree.Sound`: sound arenas.
* `Tree.Sound.check`: the check of a sound arena gives its black height.
-/

namespace Dataflow.RedBlack

variable {K V : Type}

/-- The slots of a shape, in the order of the entries. -/
def Shape.slots : Shape K V → List Nat
  | .leaf => []
  | .node _ l i _ r => l.slots ++ i :: r.slots

theorem Shape.length_slots (s : Shape K V) : s.slots.length = s.size := by
  induction s with
  | leaf => rfl
  | node c l i e r ihl ihr =>
    rw [slots, List.length_append, List.length_cons, ihl, ihr]
    rfl

theorem Shape.map_slot_cells (s : Shape K V) (parent : Link) :
    (s.cells parent).map Prod.snd = (s.slots : Multiset Nat) := by
  induction s generalizing parent with
  | leaf => rfl
  | node c l i e r ihl ihr =>
    rw [cells, Multiset.map_add, Multiset.map_add, Multiset.map_singleton, ihl, ihr, slots,
      ← Multiset.coe_add, ← Multiset.cons_coe, ← Multiset.singleton_add]
    exact add_left_comm _ _ _

namespace Tree

variable {t : Tree K V} {path : Path K V} {s : Shape K V} {spare : Multiset (Cell K V)}
  {parent : Link} {n : Nat}

/-- The arena has the nodes of a shape that hangs under a link: each has the entry, the color and
the children that the shape says, and leads back to its parent. -/
def Linked (t : Tree K V) : (parent : Link) → Shape K V → Prop
  | _, .leaf => True
  | parent, .node c l i e r =>
    t.node? i = some ⟨e.1, e.2, parent, l.root, r.root, c⟩ ∧
      t.Linked (some i) l ∧ t.Linked (some i) r

theorem Focused.linked (h : t.Focused path s spare) : t.Linked path.link s := by
  induction s generalizing path with
  | leaf => trivial
  | node c l i e r ihl ihr =>
    exact ⟨node?_of_cells h.cells_node, ihl (focused_left.mp h), ihr (focused_right.mp h)⟩

theorem mem_cells {nd : Node K V} {i : Nat} : (nd, i) ∈ t.cells ↔ t.node? i = some nd := by
  rw [cells, Multiset.mem_coe, List.mem_zipIdx_iff_getElem?, Array.getElem?_toList]
  rfl

theorem Linked.cells_subset (h : t.Linked parent s) : s.cells parent ⊆ t.cells := by
  induction s generalizing parent with
  | leaf => exact Multiset.zero_subset _
  | node c l i e r ihl ihr =>
    obtain ⟨hnode, hl, hr⟩ := h
    intro cell hcell
    rw [Shape.cells] at hcell
    rcases Multiset.mem_add.mp hcell with hcell | hcell
    · rw [Multiset.mem_singleton.mp hcell]
      exact mem_cells.mpr hnode
    · rcases Multiset.mem_add.mp hcell with hcell | hcell
      · exact ihl hl hcell
      · exact ihr hr hcell

/-- The arena holds a shape and has no slots besides those of the shape and the spare ones. -/
structure Holds (t : Tree K V) (s : Shape K V) (spare : List Nat) : Prop where
  root_eq : t.root = s.root
  linked : t.Linked none s
  slots_perm : (spare ++ s.slots).Perm (List.range t.size)

theorem Focused.holds {slots : List Nat} (h : t.Focused [] s spare)
    (hspare : spare.map Prod.snd = (slots : Multiset Nat)) : t.Holds s slots := by
  refine ⟨h.root_eq, h.linked, ?_⟩
  have hslots := congrArg (Multiset.map Prod.snd) h.cells_eq
  rw [slots_cells, Path.cells, zero_add, Multiset.map_add, Shape.map_slot_cells, hspare, add_comm,
    Multiset.coe_add] at hslots
  exact Multiset.coe_eq_coe.mp hslots.symm

/-- The cells that are not those of the shape are in the spare slots. -/
theorem Holds.exists_focused {slots : List Nat} (h : t.Holds s slots) :
    ∃ spare, t.Focused [] s spare ∧ spare.map Prod.snd = (slots : Multiset Nat) := by
  have hrange : (slots : Multiset Nat) + s.slots = Multiset.range t.size :=
    Multiset.coe_eq_coe.mpr h.slots_perm
  have hnodup : (s.cells none).Nodup := by
    refine Multiset.Nodup.of_map Prod.snd ?_
    rw [Shape.map_slot_cells]
    have hrest := Multiset.nodup_range t.size
    rw [← hrange] at hrest
    exact Multiset.nodup_of_le (Multiset.le_add_left _ _) hrest
  obtain ⟨spare, hspare⟩ := Multiset.le_iff_exists_add.mp
    ((Multiset.le_iff_subset hnodup).mpr h.linked.cells_subset)
  refine ⟨spare, ⟨h.root_eq, ?_⟩, ?_⟩
  · rw [hspare, Path.cells, zero_add, Path.link_nil]
  · have hslots := congrArg (Multiset.map Prod.snd) hspare
    rw [slots_cells, Multiset.map_add, Shape.map_slot_cells, ← hrange, add_comm] at hslots
    exact (add_left_cancel hslots).symm

/-- Without spare cells, every slot of the arena is a slot of the shape, once. -/
theorem Focused.slots_perm (h : t.Focused [] s 0) : s.slots.Perm (List.range t.size) := by
  have hholds : t.Holds s [] := h.holds rfl
  exact hholds.slots_perm

/-- A shape whose slots are those of the arena leaves no cell spare. -/
theorem Linked.focused (h : t.Linked none s) (hroot : t.root = s.root)
    (hslots : s.slots.Perm (List.range t.size)) : t.Focused [] s 0 := by
  have hholds : t.Holds s [] := ⟨hroot, h, hslots⟩
  obtain ⟨spare, hs, hspare⟩ := hholds.exists_focused
  rwa [Multiset.map_eq_zero.mp hspare] at hs

/-- The arena stands for a red-black search tree of a black height, and for nothing else. -/
structure Sound [Ord K] (t : Tree K V) (height : Nat) (s : Shape K V) : Prop where
  root_eq : t.root = s.root
  linked : t.Linked none s
  dense : s.slots.Perm (List.range t.size)
  black : s.color = .black
  balanced : s.Balanced height
  ascending : SortedMap.Sorted ⟨s.toList⟩

theorem Sound.focused [Ord K] (h : t.Sound n s) : t.Focused [] s 0 :=
  h.linked.focused h.root_eq h.dense

theorem Sound.size_eq [Ord K] (h : t.Sound n s) : s.size = t.size := by
  rw [← Shape.length_slots, h.dense.length_eq, List.length_range]

/-! ## The check -/

theorem Linked.checkChild {i : Nat} (h : t.Linked (some i) s) {nd : Node K V}
    (hred : nd.color = .red → s.color = .black) : t.checkChild i nd s.root = .ok () := by
  cases s with
  | leaf => rfl
  | node c l j e r =>
    have hpair : ¬(nd.color = .red ∧ c = .red) := by
      rintro ⟨hnd, rfl⟩
      cases hred hnd
    rw [Shape.root, Tree.checkChild, h.1]
    simp [hpair]

theorem checkBelow_node {fuel i left right : Nat} {nd : Node K V} (hnode : t.node? i = some nd)
    (hl : t.checkChild i nd nd.left = .ok ()) (hr : t.checkChild i nd nd.right = .ok ())
    (hleft : t.checkBelow fuel nd.left = .ok (n, left))
    (hright : t.checkBelow fuel nd.right = .ok (n, right)) :
    t.checkBelow (fuel + 1) (some i) =
      .ok (n + (if nd.color = .black then 1 else 0), left + right + 1) := by
  rw [Tree.checkBelow, hnode]
  dsimp only
  rw [hl, hr, hleft, hright, Nat.add_comm (left + right) 1, ← Nat.add_assoc]
  simp [bind, Except.bind, pure, Except.pure]

/-- The check of a balanced subtree finds nothing, and counts its nodes. -/
theorem Linked.checkBelow {fuel : Nat} (h : t.Linked parent s) (hs : s.Balanced n)
    (hfuel : s.size ≤ fuel) : t.checkBelow fuel s.root = .ok (n, s.size) := by
  induction hs generalizing parent fuel with
  | leaf => cases fuel <;> rfl
  | red hlc hrc _ _ ihl ihr =>
    obtain ⟨fuel, rfl⟩ : ∃ m, fuel = m + 1 := ⟨fuel - 1, by rw [Shape.size] at hfuel; omega⟩
    rw [Shape.size] at hfuel
    obtain ⟨hnode, hl, hr⟩ := h
    exact checkBelow_node hnode (hl.checkChild fun _ => hlc) (hr.checkChild fun _ => hrc)
      (ihl hl (by omega)) (ihr hr (by omega))
  | black _ _ ihl ihr =>
    obtain ⟨fuel, rfl⟩ : ∃ m, fuel = m + 1 := ⟨fuel - 1, by rw [Shape.size] at hfuel; omega⟩
    rw [Shape.size] at hfuel
    obtain ⟨hnode, hl, hr⟩ := h
    exact checkBelow_node hnode (hl.checkChild (by simp)) (hr.checkChild (by simp))
      (ihl hl (by omega)) (ihr hr (by omega))

theorem Linked.checkRoot (h : t.Linked none s) (hroot : t.root = s.root)
    (hblack : s.color = .black) : t.checkRoot = .ok () := by
  rw [Tree.checkRoot, hroot]
  cases s with
  | leaf => rfl
  | node c l i e r =>
    obtain rfl : c = .black := hblack
    simp [h.1]

theorem checkOrder_ok [Ord K] {keys : List K} (h : keys.Pairwise fun a b => compare a b = .lt)
    (position : Nat) : checkOrder position keys = .ok () := by
  induction keys generalizing position with
  | nil => rfl
  | cons a rest ih =>
    obtain ⟨ha, hrest⟩ := List.pairwise_cons.mp h
    cases rest with
    | nil => rfl
    | cons b rest => rw [checkOrder, if_pos (ha b List.mem_cons_self), ih hrest]

/-- The check finds nothing wrong with a sound arena and gives its black height. -/
theorem Sound.check [Ord K] (h : t.Sound n s) : t.check = .ok n := by
  have hkeys : t.keys.Pairwise fun a b => compare a b = .lt := by
    rw [Tree.keys, h.focused.toList_eq]
    exact List.pairwise_map.mpr h.ascending
  rw [Tree.check, h.linked.checkRoot h.root_eq h.black, h.root_eq,
    h.linked.checkBelow h.balanced (Nat.le_of_eq h.size_eq), checkOrder_ok hkeys]
  simp [bind, Except.bind, pure, Except.pure, h.size_eq]

end Tree

end Dataflow.RedBlack

import Dataflow.Proofs.RedBlack.Height
import Dataflow.Proofs.RedBlack.Range
import Dataflow.Proofs.RedBlack.Turns

/-!
# No operation fails

A look-up of a slot that is not there gives nothing, and so does a loop that takes more turns than
there are nodes. The trees that commands build meet neither.

* `Tree.Focused.climbsRed`, `Tree.Focused.climbsGap`: the climbs that insertion and removal start.
* `Tree.Faultless`: every operation on a tree finds the nodes that it looks for and ends.
* `Tree.Represents.faultless`, `Tree.run_faultless`: so it is for trees that stand for maps, and for
  all that commands build.
-/

namespace Dataflow.RedBlack.Tree

variable {K V : Type} {t : Tree K V} {path : Path K V} {s : Shape K V}
  {spare : Multiset (Cell K V)} {n : Nat}

/-! ## Climbs -/

/-- The climb after an insertion starts at the new leaf. -/
theorem Focused.climbsRed (h : t.Focused path .leaf spare) (hm : (path.fill .leaf).Balanced n)
    (hblack : (path.fill .leaf).color = .black) (k : K) (v : V) :
    ∃ t', t.attach k v path.spot = some t' ∧ t'.ClimbsRed t.size t.height := by
  obtain ⟨t', hattach, hred⟩ := h.attach_redAt hm hblack k v
  refine ⟨t', hattach, hred.climbs ?_⟩
  rw [(focused_fill.mp h).height_eq]
  exact path.length_add_height_le .leaf

/-- The climb after a removal starts where a black node has gone away. -/
theorem Focused.climbsGap {c : Color} {l r : Shape K V} {z m : Nat} {e : K × V}
    (h : t.Focused path (.node c l z e r) spare) (hm : (path.fill (.node c l z e r)).Balanced m)
    (hroot : (path.fill (.node c l z e r)).color = .black) :
    ∃ d, t.detach z = some d ∧
      (d.removed = .black → d.tree.ClimbsGap d.gap d.gapParent t.height) := by
  obtain ⟨d, path', x, hdetach, hdepth, hremoval⟩ := h.detach hm hroot
  refine ⟨d, hdetach, fun hremoved => ?_⟩
  obtain ⟨nz, n, -, hlack⟩ := hremoval.gapAt hremoved
  rw [hremoval.gap_eq, hremoval.gapParent_eq, (focused_fill.mp h).height_eq]
  exact hlack.climbs hdepth.le

/-! ## Slots -/

theorem Focused.slot_lt (h : t.Focused path s spare) : ∀ i ∈ s.root, i < t.size := by
  intro i hi
  obtain ⟨node, hnode, -⟩ := h.top hi
  exact lt_of_node? hnode

theorem Focused.ahead_lt {l : Link} {entries : List (K × V)} (h : t.Focused [] s spare)
    (hl : s.Ahead l entries) : ∀ i ∈ l, i < t.size := by
  rintro i rfl
  cases hl with
  | node hs =>
    subst hs
    exact (focused_fill.mpr h).slot_lt i rfl

/-- The slot that a search ends at: that of the key, or that of the node below which it belongs. -/
def Place.slot : Place → Link
  | .present i => some i
  | .vacant parent => parent.map (·.1)

/-- A rotation that takes all its steps has found the child that it turns up. -/
theorem exists_pivot {t' : Tree K V} {side : Side} {i : Nat} (h : t.rotate side i = some t') :
    ∃ node j child, t.node? i = some node ∧ node.child side.other = some j ∧
      t.node? j = some child := by
  obtain ⟨node, hnode, h⟩ := Option.bind_eq_some_iff.mp h
  obtain ⟨j, hj, h⟩ := Option.bind_eq_some_iff.mp h
  obtain ⟨child, hchild, -⟩ := Option.bind_eq_some_iff.mp h
  exact ⟨node, j, child, hnode, hj, hchild⟩

/-! ## Operations -/

section Ordered

variable [Ord K]

/-- Every operation on the tree finds the nodes that it looks for, and every loop ends. A climb
takes no more turns than the tree was high before the operation. -/
structure Faultless (t : Tree K V) : Prop where
  root : ∀ i ∈ t.root, i < t.size
  search : ∀ k, ∃ place, t.search k = some place ∧ ∀ i ∈ place.slot, i < t.size
  lowerBound : ∀ k, t.lowerBoundFrom? k t.size t.root none = some (t.lowerBound k).position ∧
    ∀ i ∈ (t.lowerBound k).position, i < t.size
  descend : ∀ side, ∀ i < t.size, ∃ j < t.size, t.descend side i = some j
  extreme? : ∀ side, ∀ i ∈ t.root, ∃ e, t.extreme? side = some e
  next : ∀ i < t.size, ∃ e l, Cursor.next ⟨t, some i⟩ = some (e, ⟨t, l⟩) ∧ ∀ j ∈ l, j < t.size
  insert : ∀ k v, t.insert? k v = some (t.insert k v)
  erase : ∀ k, t.erase? k = some (t.erase k)
  attach : ∀ k v parent, t.search k = some (.vacant parent) →
    ∃ t', t.attach k v parent = some t' ∧ t'.ClimbsRed t.size t.height
  detach : ∀ z < t.size, ∃ d, t.detach z = some d ∧
    (d.removed = .black → d.tree.ClimbsGap d.gap d.gapParent t.height)

variable [Std.TransOrd K] {m : SortedMap K V} {k : K}

omit [Std.TransOrd K] in
theorem Focused.located_lt {place : Place} (h : t.Focused [] s spare) (hplace : Located k s place) :
    ∀ i ∈ place.slot, i < t.size := by
  rintro i hi
  cases hplace with
  | present hs =>
    subst hs
    exact (focused_fill.mpr h).slot_lt i hi
  | @vacant path hs =>
    subst hs
    cases path with
    | nil => cases hi
    | cons d path =>
      obtain rfl := Option.some.inj hi
      exact lt_of_node? (focused_fill.mpr h).crumb

theorem Represents.faultless (h : t.Represents m) : t.Faultless := by
  obtain ⟨⟨s, n, hs, hn, hblack, hlist⟩, hsorted⟩ := id h
  have hsorted' : SortedMap.Sorted ⟨s.toList⟩ := hlist ▸ hsorted
  constructor
  case root =>
    intro i hi
    exact hs.slot_lt i (hs.root_eq.symm.trans hi)
  case search =>
    intro k
    obtain ⟨place, hsearch, hplace⟩ := hs.search hsorted' k
    exact ⟨place, hsearch, hs.located_lt hplace⟩
  case lowerBound =>
    intro k
    obtain ⟨hfound, hahead⟩ := hs.lowerBound hsorted' k
    exact ⟨hfound, hs.ahead_lt hahead⟩
  case descend =>
    intro side i hi
    obtain ⟨path, c, l, e, r, rfl, hplace⟩ := hs.exists_place hi
    obtain ⟨down, c', j, e', far, hdescend, hfill, -⟩ := hplace.descend rfl side
    rw [hfill, ← focused_append] at hplace
    exact ⟨j, lt_of_node? hplace.node?, hdescend⟩
  case extreme? =>
    intro side i hi
    rcases hs.extreme? side with ⟨rfl, -⟩ | ⟨down, c, j, e, far, -, -, hsome⟩
    · have hnone : t.root = none := hs.root_eq
      cases hnone.symm.trans hi
    · exact ⟨e, hsome⟩
  case next =>
    intro i hi
    obtain ⟨path, c, l, e, r, rfl, -⟩ := hs.exists_place hi
    obtain ⟨next, hnext, hahead⟩ := hs.next (.node rfl)
    exact ⟨e, next, hnext, hs.ahead_lt hahead⟩
  case insert =>
    intro k v
    obtain ⟨t', hinsert, -⟩ := h.insert?_eq k v
    rw [Tree.insert, hinsert, Option.getD_some]
  case erase =>
    intro k
    obtain ⟨t', herase, -⟩ := h.erase?_eq k
    rw [Tree.erase, herase, Option.getD_some]
  case attach =>
    intro k v parent hparent
    obtain ⟨place, hsearch, hplace⟩ := hs.search hsorted' k
    obtain rfl := Option.some.inj (hsearch.symm.trans hparent)
    cases hplace with
    | vacant hfill =>
      subst hfill
      exact (focused_fill.mpr hs).climbsRed hn hblack k v
  case detach =>
    intro z hz
    obtain ⟨path, c, l, e, r, rfl, hplace⟩ := hs.exists_place hz
    exact hplace.climbsGap hn hblack

/-- No operation on a tree that commands build looks for a node that is not there, and no loop of
one goes on for ever. -/
theorem run_faultless (entries : List (K × V)) (commands : List (Command K V)) :
    ((ofList entries).run commands).2.Faultless ∧
      ∀ (t t' : Tree K V) side i, t.rotate side i = some t' →
        ∃ node j child, t.node? i = some node ∧ node.child side.other = some j ∧
          t.node? j = some child :=
  ⟨((represents_ofList entries).run commands).2.faultless, fun _ _ _ _ => exists_pivot⟩

/-- All nodes of this tree are black. Where the least one goes away a child is missing, and so are
both children of its sibling. -/
theorem run_faultless_missing_child :
    let t := ((ofList [(2, 'b'), (1, 'a'), (3, 'c'), (4, 'd')]).run [.remove 4]).2
    ∃ d, t.detach 1 = some d ∧ d.gap = none ∧ d.gapParent = some 0 ∧
      d.tree.ClimbsGap none (some 0) 2 := by
  intro t
  obtain ⟨hfaultless, -⟩ :=
    run_faultless [(2, 'b'), (1, 'a'), (3, 'c'), (4, 'd')] [.remove 4]
  have hheight : t.height = 2 := by decide
  have hcomputed : (t.detach 1).map (fun d => (d.removed, d.gap, d.gapParent)) =
      some (.black, none, some 0) := by decide
  obtain ⟨d, hdetach, hclimbs⟩ := hfaultless.detach 1 (by decide)
  rw [hdetach, Option.map_some, Option.some.injEq, Prod.mk.injEq, Prod.mk.injEq] at hcomputed
  obtain ⟨hremoved, hgap, hparent⟩ := hcomputed
  have hclimb := hclimbs hremoved
  rw [hgap, hparent] at hclimb
  exact ⟨d, hdetach, hgap, hparent, hheight ▸ hclimb⟩

end Ordered

end Dataflow.RedBlack.Tree

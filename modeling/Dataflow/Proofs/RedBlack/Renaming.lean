import Dataflow.Proofs.RedBlack.Refinement

/-!
# What giving back a slot leaves as it is

The last node of an arena moves into a slot that is given back. Every other node stays where it is,
and in all links the new slot of the moved node stands for the old one. Nothing is assumed of the
node whose slot is given back: its links may be those that it had in the tree, and lead anywhere.

* `Node.rename`, `Node.Names`: the links of a node under other names, and what they name.
* `Tree.LinksAgree`: links lead back and forth between the same slots.
* `Tree.Renamed`: another arena has the nodes of a shape under other names, and no others.
* `Tree.Sound.removeNode_holds`: a node that was taken out of a tree leaves a slot to be given back.
* `Tree.compact_renames`: the slot of the moved node is all that changes.
-/

namespace Dataflow.RedBlack

variable {K V : Type}

namespace Node

/-- The node with the slots in its links under other names. -/
def rename (f : Nat → Nat) (n : Node K V) : Node K V :=
  { n with parent := n.parent.map f, left := n.left.map f, right := n.right.map f }

/-- A link of the node leads to a slot. -/
def Names (n : Node K V) (j : Nat) : Prop := n.parent = some j ∨ n.left = some j ∨ n.right = some j

end Node

theorem Shape.mem_slots_of_root {s : Shape K V} {i : Nat} (h : s.root = some i) : i ∈ s.slots := by
  cases s with
  | leaf => cases h
  | node c l j e r =>
    cases h
    exact List.mem_append_right _ List.mem_cons_self

namespace Tree

variable {t t' : Tree K V} {s : Shape K V} {spare : List Nat} {parent : Link} {n : Node K V}
  {i j z : Nat} {f : Nat → Nat}

/-! ## What links name -/

/-- The links of the nodes of a shape stay inside of it, but for the link to the parent. -/
theorem Linked.mem_slots_of_names (h : t.Linked parent s) (hi : i ∈ s.slots)
    (hn : t.node? i = some n) (hj : n.Names j) : parent = some j ∨ j ∈ s.slots := by
  induction s generalizing parent with
  | leaf => cases hi
  | node c l k e r ihl ihr =>
    obtain ⟨hnode, hl, hr⟩ := h
    rw [Shape.slots, List.mem_append, List.mem_cons] at hi ⊢
    rcases hi with hi | rfl | hi
    -- A link that leaves a subtree is the one to the top of the whole shape.
    · rcases ihl hl hi with hk | hj
      · exact .inr (.inr (.inl (Option.some.inj hk).symm))
      · exact .inr (.inl hj)
    · obtain rfl := Option.some.inj (hn.symm.trans hnode)
      rcases hj with hj | hj | hj
      · exact .inl hj
      · exact .inr (.inl (Shape.mem_slots_of_root hj))
      · exact .inr (.inr (.inr (Shape.mem_slots_of_root hj)))
    · rcases ihr hr hi with hk | hj
      · exact .inr (.inr (.inl (Option.some.inj hk).symm))
      · exact .inr (.inr (.inr hj))

/-- What is not a slot of the shape is named neither by the root nor by a node of the shape. -/
theorem Holds.not_names (h : t.Holds s spare) (hj : j ∉ s.slots) :
    t.root ≠ some j ∧ ∀ i ∈ s.slots, ∀ n, t.node? i = some n → ¬n.Names j := by
  constructor
  · intro hroot
    exact hj (Shape.mem_slots_of_root (h.root_eq.symm.trans hroot))
  · intro i hi n hn hnames
    rcases h.linked.mem_slots_of_names hi hn hnames with hnone | hmem
    · cases hnone
    · exact hj hmem

/-- Nothing names a spare slot, unless it is itself in a spare slot. -/
theorem Holds.spare_not_names (h : t.Holds s spare) (hz : z ∈ spare) :
    t.root ≠ some z ∧ ∀ i ∉ spare, ∀ n, t.node? i = some n → ¬n.Names z := by
  have hnodup : (spare ++ s.slots).Nodup := h.slots_perm.nodup_iff.mpr List.nodup_range
  obtain ⟨hroot, hnames⟩ := h.not_names (List.disjoint_of_nodup_append hnodup hz)
  refine ⟨hroot, fun i hi n hn => hnames i ?_ n hn⟩
  have hmem := h.slots_perm.mem_iff.mpr (List.mem_range.mpr (lt_of_node? hn))
  exact (List.mem_append.mp hmem).resolve_left hi

/-- The root has no parent, every child leads back to its parent, and every node that is not the root
is a child of its parent. -/
structure LinksAgree (t : Tree K V) : Prop where
  root : ∀ i, t.root = some i → ∃ n, t.node? i = some n ∧ n.parent = none
  child : ∀ i n side j, t.node? i = some n → n.child side = some j →
    ∃ m, t.node? j = some m ∧ m.parent = some i
  parent : ∀ i n, t.node? i = some n → n.parent = none ∧ t.root = some i ∨
    ∃ p m side, n.parent = some p ∧ t.node? p = some m ∧ m.child side = some i

theorem Focused.linksAgree (h : t.Focused [] s 0) : t.LinksAgree where
  root i hi := by
    obtain ⟨n, hn, hparent, -⟩ := h.top (h.root_eq.symm.trans hi)
    exact ⟨n, hn, hparent⟩
  child i n side j hn hj := by
    obtain ⟨path, c, l, e, r, rfl, hplace⟩ := h.exists_place (lt_of_node? hn)
    obtain rfl := Option.some.inj (hn.symm.trans (node?_of_cells hplace.cells_node))
    cases side with
    | left =>
      obtain ⟨m, hm, hparent, -⟩ := (focused_left.mp hplace).top hj
      exact ⟨m, hm, hparent⟩
    | right =>
      obtain ⟨m, hm, hparent, -⟩ := (focused_right.mp hplace).top hj
      exact ⟨m, hm, hparent⟩
  parent i n hn := by
    obtain ⟨path, c, l, e, r, rfl, hplace⟩ := h.exists_place (lt_of_node? hn)
    obtain rfl := Option.some.inj (hn.symm.trans (node?_of_cells hplace.cells_node))
    cases path with
    | nil => exact .inl ⟨rfl, hplace.root_eq⟩
    | cons d path => exact .inr ⟨d.slot, _, d.side, rfl, hplace.crumb, Node.child_facing ..⟩

/-! ## Arenas that differ in names -/

/-- Another arena has the nodes of a shape in slots of other names, with links that follow, and has
no other nodes. -/
structure Renamed (f : Nat → Nat) (t : Tree K V) (s : Shape K V) (t' : Tree K V) : Prop where
  root_eq : t'.root = t.root.map f
  node?_eq : ∀ i ∈ s.slots, t'.node? (f i) = (t.node? i).map (Node.rename f)
  holds : t'.Holds (s.rename f) []
  linksAgree : t'.LinksAgree
  toList_eq : t'.toList = t.toList

theorem Linked.node?_rename (h : t.Linked parent s) (h' : t'.Linked (parent.map f) (s.rename f)) :
    ∀ i ∈ s.slots, t'.node? (f i) = (t.node? i).map (Node.rename f) := by
  induction s generalizing parent with
  | leaf => exact List.forall_mem_nil _
  | node c l k e r ihl ihr =>
    obtain ⟨hnode, hl, hr⟩ := h
    obtain ⟨hnode', hl', hr'⟩ := h'
    rw [Shape.slots, List.forall_mem_append, List.forall_mem_cons]
    refine ⟨ihl hl hl', ?_, ihr hr hr'⟩
    rw [hnode', hnode, Shape.root_rename, Shape.root_rename]
    rfl

theorem Holds.renamed (h : t.Holds s spare) (h' : t'.Holds (s.rename f) []) :
    t.Renamed f s t' := by
  obtain ⟨cells, hcells, -⟩ := h.exists_focused
  have hcells' : t'.Focused [] (s.rename f) 0 := h'.linked.focused h'.root_eq h'.slots_perm
  refine ⟨?_, h.linked.node?_rename h'.linked, h', hcells'.linksAgree, ?_⟩
  · rw [h'.root_eq, h.root_eq, Shape.root_rename]
  · rw [hcells'.toList_eq, hcells.toList_eq, Shape.toList_rename]

/-! ## Giving back a slot -/

/-- Taking a node out of a sound arena leaves its slot spare, and no other. Nothing that is still
linked names it. -/
theorem Sound.removeNode_holds [Ord K] {height : Nat} (h : t.Sound height s) (hz : z < t.size) :
    ∃ t' s', t.removeNode z = some t' ∧ t'.Holds s' [z] ∧
      t'.root ≠ some z ∧ ∀ i, i ≠ z → ∀ n, t'.node? i = some n → ¬n.Names z := by
  obtain ⟨path, c, l, e, r, rfl, hplace⟩ := h.focused.exists_place hz
  obtain ⟨t', nz, hremove, -, s', -, hs', -⟩ := hplace.removeNode h.balanced h.black
  rw [add_zero] at hs'
  have hholds : t'.Holds s' [z] := hs'.holds rfl
  obtain ⟨hroot, hnames⟩ := hholds.spare_not_names List.mem_cons_self
  exact ⟨t', s', hremove, hholds, hroot, fun i hi => hnames i (List.mem_singleton.not.mpr hi)⟩

/-- Giving back a spare slot gives the entry in it and leaves the tree as it was, with the slot of
the last node under the name of the slot that was given back. -/
theorem compact_renames (h : t.Holds s [z]) :
    ∃ n t', t.node? z = some n ∧ t.compact z = some (n.entry, t') ∧ t'.size + 1 = t.size ∧
      t.Renamed (Function.update id (t.size - 1) z) s t' ∧
      t'.root ≠ some (t.size - 1) ∧ ∀ i m, t'.node? i = some m → ¬m.Names (t.size - 1) := by
  obtain ⟨cells, hcells, hspare⟩ := h.exists_focused
  -- There is one spare cell. Its node is the one whose entry is given.
  obtain ⟨⟨n, i⟩, rfl, hi⟩ := Multiset.map_eq_singleton.mp hspare
  obtain rfl : z = i := hi.symm
  obtain ⟨t', hcompact, hsize, h'⟩ := hcells.compact
  have hholds : t'.Holds _ [] := h'.holds rfl
  have hlast : t.size - 1 ∉ (s.rename (Function.update id (t.size - 1) z)).slots := by
    intro hmem
    have hlt := List.mem_range.mp (h'.slots_perm.mem_iff.mp hmem)
    omega
  obtain ⟨hroot, hnames⟩ := hholds.not_names hlast
  refine ⟨n, t', node?_of_cells hcells.cells_spare, hcompact, hsize, h.renamed hholds, hroot, ?_⟩
  intro i m hm
  exact hnames i (h'.slots_perm.mem_iff.mpr (List.mem_range.mpr (lt_of_node? hm))) m hm

/-- The successor has taken the place of the root and is in the last slot. The links of the node
that was the root still lead to it. -/
theorem compact_renames_successor :
    let t : Tree Nat Nat :=
      ⟨#[⟨5, 50, none, some 1, some 2, .black⟩, ⟨3, 30, some 0, none, none, .red⟩,
        ⟨9, 90, some 0, none, none, .red⟩], some 0⟩
    let s : Shape Nat Nat := .node .black (.node .red .leaf 1 (3, 30) .leaf) 2 (9, 90) .leaf
    ∃ t₁ t₂, t.removeNode 0 = some t₁ ∧ t₁.Holds s [0] ∧
      t₁.node? 0 = some ⟨5, 50, none, some 1, some 2, .black⟩ ∧ t₁.root = some 2 ∧
      t₁.compact 0 = some ((5, 50), t₂) ∧ t₁.Renamed (Function.update id 2 0) s t₂ ∧
      t₂.nodes = #[⟨9, 90, none, some 1, none, .black⟩, ⟨3, 30, some 0, none, none, .red⟩] ∧
      t₂.root = some 0 := by
  intro t s
  let t₁ : Tree Nat Nat :=
    ⟨#[⟨5, 50, none, some 1, some 2, .black⟩, ⟨3, 30, some 2, none, none, .red⟩,
      ⟨9, 90, none, some 1, none, .black⟩], some 2⟩
  have hholds : t₁.Holds s [0] := ⟨rfl, ⟨rfl, ⟨rfl, trivial, trivial⟩, trivial⟩, by decide⟩
  obtain ⟨n, t₂, hn, hcompact, -, hrenamed, -, -⟩ := compact_renames hholds
  obtain rfl : n = ⟨5, 50, none, some 1, some 2, .black⟩ := (Option.some.inj hn).symm
  have hcomputed : t₁.compact 0 = some ((5, 50),
      ⟨#[⟨9, 90, none, some 1, none, .black⟩, ⟨3, 30, some 0, none, none, .red⟩], some 0⟩) := by
    decide
  obtain rfl := (Prod.mk.inj (Option.some.inj (hcompact.symm.trans hcomputed))).2
  exact ⟨t₁, _, by decide, hholds, rfl, rfl, hcompact, hrenamed, rfl, rfl⟩

end Tree

end Dataflow.RedBlack

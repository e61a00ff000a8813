import Mathlib.Algebra.Order.Group.Multiset
import Mathlib.Data.Multiset.Range
import Mathlib.Tactic.Abel
import Dataflow.Proofs.RedBlack.Shape

/-!
# The arena of a red-black tree

The cells of an arena, its nodes with their slots, are a multiset. An arena that stands for a shape
splits into the cells of the subtrees of the shape, so that a change of one node leaves the other
parts of the sum alone, and no node has to be told from another.

* `Tree.cells`, `Shape.cells`, `Path.cells`: the cells of an arena, and those of its parts.
* `Tree.Focused`: an arena holds a shape in a place. Cells that belong to no shape are spare.
* `Tree.update_cells`, `Tree.updateLink_cells`, `Tree.replaceChild_cells`: the changes of cells.
* `Tree.replaceChild_of_child`: a parent may be asked for its children in either order.
* `Tree.Focused.rotate`, `Tree.Focused.recolor`: the changes of shape.
-/

namespace Dataflow.RedBlack

variable {K V : Type}

/-! ## Nodes from either side -/

/-- The node with a child on a side and a child on the other side. -/
def Node.facing (side : Side) (e : K × V) (parent near far : Link) (c : Color) : Node K V :=
  match side with
  | .left => ⟨e.1, e.2, parent, near, far, c⟩
  | .right => ⟨e.1, e.2, parent, far, near, c⟩

namespace Node

variable (side : Side) (e : K × V) (parent near far l : Link) (c c' : Color)

@[simp] theorem parent_facing : (facing side e parent near far c).parent = parent := by
  cases side <;> rfl

@[simp] theorem color_facing : (facing side e parent near far c).color = c := by
  cases side <;> rfl

@[simp] theorem entry_facing : (facing side e parent near far c).entry = e := by
  cases side <;> rfl

@[simp] theorem child_facing : (facing side e parent near far c).child side = near := by
  cases side <;> rfl

@[simp] theorem child_other_facing : (facing side e parent near far c).child side.other = far := by
  cases side <;> rfl

@[simp] theorem setChild_facing :
    (facing side e parent near far c).setChild side l = facing side e parent l far c := by
  cases side <;> rfl

@[simp] theorem setChild_other_facing :
    (facing side e parent near far c).setChild side.other l = facing side e parent near l c := by
  cases side <;> rfl

@[simp] theorem setParent_facing :
    (facing side e parent near far c).setParent l = facing side e l near far c := by
  cases side <;> rfl

@[simp] theorem setColor_facing :
    (facing side e parent near far c).setColor c' = facing side e parent near far c' := by
  cases side <;> rfl

end Node

/-! ## Cells -/

abbrev Cell (K V : Type) := Node K V × Nat

/-- The cells of a shape that hangs under a link. -/
def Shape.cells : Shape K V → (parent : Link) → Multiset (Cell K V)
  | .leaf, _ => 0
  | .node c l i e r, parent =>
    {(⟨e.1, e.2, parent, l.root, r.root, c⟩, i)} + (l.cells (some i) + r.cells (some i))

/-- The cells on the way up from a place in which `hole` hangs, and those beside the way. -/
def Path.cells : Path K V → (hole : Link) → Multiset (Cell K V)
  | [], _ => 0
  | d :: path, hole =>
    {(.facing d.side d.entry (Path.link path) hole d.sibling.root d.color, d.slot)} +
      (d.sibling.cells (some d.slot) + Path.cells path (some d.slot))

theorem Shape.cells_join (side : Side) (c : Color) (i : Nat) (e : K × V) (near far : Shape K V)
    (parent : Link) : (join side c i e near far).cells parent =
      {(.facing side e parent near.root far.root c, i)} +
        (near.cells (some i) + far.cells (some i)) := by
  cases side with
  | left => rfl
  | right =>
    rw [add_comm (near.cells _)]
    rfl

theorem Shape.exists_cell {s : Shape K V} {i : Nat} (h : s.root = some i) (parent : Link) :
    ∃ n rest, s.cells parent = {(n, i)} + rest := by
  cases s with
  | leaf => cases h
  | node c l j e r =>
    cases h
    exact ⟨_, _, rfl⟩

theorem Shape.card_cells (s : Shape K V) (parent : Link) : (s.cells parent).card = s.size := by
  induction s generalizing parent with
  | leaf => rfl
  | node c l i e r ihl ihr =>
    rw [cells, Multiset.card_add, Multiset.card_add, Multiset.card_singleton, ihl, ihr, size]
    exact Nat.add_comm _ _

/-- Every node on the way up has a cell. -/
theorem Path.exists_cell {path : Path K V} {g : Crumb K V} (hg : g ∈ path) (hole : Link) :
    ∃ n rest, path.cells hole = {(n, g.slot)} + rest := by
  induction path generalizing hole with
  | nil => cases hg
  | cons d path ih =>
    rw [Path.cells]
    rcases List.mem_cons.mp hg with rfl | hg
    · exact ⟨_, _, rfl⟩
    · obtain ⟨n, rest, hcells⟩ := ih hg (some d.slot)
      refine ⟨n, {(.facing d.side d.entry (Path.link path) hole d.sibling.root d.color, d.slot)} +
        (d.sibling.cells (some d.slot) + rest), ?_⟩
      rw [hcells]
      abel

/-- The root lies on the way up. -/
theorem Path.exists_top (d : Crumb K V) (path : Path K V) (hole : Link) :
    ∃ g ∈ d :: path, Path.top (d :: path) hole = some g.slot := by
  induction path generalizing d hole with
  | nil => exact ⟨d, List.mem_cons_self, rfl⟩
  | cons g path ih =>
    obtain ⟨g', hg', htop⟩ := ih g (some d.slot)
    exact ⟨g', List.mem_cons_of_mem _ hg', htop⟩

theorem Path.length_le_card (path : Path K V) (hole : Link) :
    path.length ≤ (path.cells hole).card := by
  induction path generalizing hole with
  | nil => exact Nat.zero_le _
  | cons d path ih =>
    have hpath := ih (some d.slot)
    rw [Path.cells, Multiset.card_add, Multiset.card_add, Multiset.card_singleton,
      List.length_cons]
    omega

namespace Tree

variable {t : Tree K V} {n m : Node K V} {i j : Nat} {rest : Multiset (Cell K V)}

def cells (t : Tree K V) : Multiset (Cell K V) := (t.nodes.toList.zipIdx : Multiset (Cell K V))

theorem card_cells (t : Tree K V) : t.cells.card = t.size := by
  rw [cells, Multiset.coe_card, List.length_zipIdx, Array.length_toList]
  rfl

/-- Every slot has one cell. -/
theorem slots_cells (t : Tree K V) : t.cells.map Prod.snd = Multiset.range t.size := by
  rw [cells, Multiset.map_coe, List.zipIdx_map_snd, Array.length_toList, ← List.range_eq_range']
  rfl

theorem slot_ne (h : t.cells = {(n, i)} + ({(m, j)} + rest)) : i ≠ j := by
  have hnodup : (t.cells.map Prod.snd).Nodup := by
    rw [slots_cells]
    exact Multiset.nodup_range _
  rw [h, Multiset.map_add, Multiset.map_add, Multiset.map_singleton, Multiset.map_singleton,
    Multiset.singleton_add, Multiset.singleton_add, Multiset.nodup_cons] at hnodup
  rintro rfl
  exact hnodup.1 (Multiset.mem_cons_self _ _)

/-- The nodes before a cell and those behind it. -/
theorem exists_split (h : t.cells = {(n, i)} + rest) :
    ∃ before after, t.nodes.toList = before ++ n :: after ∧ before.length = i ∧
      rest = (before.zipIdx : Multiset (Cell K V)) + (after.zipIdx (i + 1) : Multiset (Cell K V)) := by
  have hmem : (n, i) ∈ t.nodes.toList.zipIdx := by
    rw [← Multiset.mem_coe, ← cells, h]
    exact Multiset.mem_add.mpr (Or.inl (Multiset.mem_singleton_self _))
  rw [List.mem_zipIdx_iff_getElem?] at hmem
  obtain ⟨hlt, hget⟩ := List.getElem?_eq_some_iff.mp hmem
  have hsplit := (List.take_append_drop i t.nodes.toList).symm
  rw [List.drop_eq_getElem_cons hlt, hget] at hsplit
  have hlen : (t.nodes.toList.take i).length = i := List.length_take_of_le (Nat.le_of_lt hlt)
  refine ⟨_, _, hsplit, hlen, ?_⟩
  rw [cells, hsplit, List.zipIdx_append, hlen, List.zipIdx_cons, ← Multiset.coe_add,
    ← Multiset.cons_coe, ← Multiset.singleton_add, Nat.zero_add] at h
  have hrest := (add_left_comm _ _ _).trans h
  exact (add_left_cancel hrest).symm

theorem cells_of_split {t' : Tree K V} {before after : List (Node K V)}
    (h : t'.nodes.toList = before ++ n :: after) (hi : before.length = i) :
    t'.cells = {(n, i)} + ((before.zipIdx : Multiset (Cell K V)) +
      (after.zipIdx (i + 1) : Multiset (Cell K V))) := by
  rw [cells, h, List.zipIdx_append, hi, List.zipIdx_cons, ← Multiset.coe_add, ← Multiset.cons_coe,
    ← Multiset.singleton_add, Nat.zero_add]
  exact add_left_comm _ _ _

theorem node?_of_cells (h : t.cells = {(n, i)} + rest) : t.node? i = some n := by
  obtain ⟨before, after, hsplit, rfl, -⟩ := exists_split h
  rw [node?, ← Array.getElem?_toList, hsplit, List.getElem?_append_right (Nat.le_refl _),
    Nat.sub_self]
  rfl

theorem update_cells (h : t.cells = {(n, i)} + rest) (f : Node K V → Node K V) :
    ∃ t', t.update i f = some t' ∧ t'.root = t.root ∧ t'.cells = {(f n, i)} + rest := by
  obtain ⟨before, after, hsplit, rfl, rfl⟩ := exists_split h
  have hlt : before.length < t.nodes.size := by
    rw [← Array.length_toList, hsplit]
    simp
  refine ⟨{ t with nodes := t.nodes.modify before.length f }, by rw [update, if_pos hlt], rfl, ?_⟩
  refine cells_of_split ?_ rfl
  rw [Array.toList_modify, hsplit, List.modify_eq_take_cons_drop (by simp)]
  simp

/-- The top of a subtree gets another parent. -/
theorem updateLink_cells {s : Shape K V} {parent : Link} (h : t.cells = s.cells parent + rest)
    (parent' : Link) : ∃ t', t.updateLink s.root (Node.setParent parent') = some t' ∧
      t'.root = t.root ∧ t'.cells = s.cells parent' + rest := by
  cases s with
  | leaf => exact ⟨t, rfl, rfl, h⟩
  | node c l i e r =>
    rw [Shape.cells, add_assoc] at h ⊢
    exact update_cells h _

theorem paint_cells {s : Shape K V} {parent : Link} (h : t.cells = s.cells parent + rest)
    (c : Color) : ∃ t', t.updateLink s.root (Node.setColor c) = some t' ∧
      t'.root = t.root ∧ t'.cells = (s.paint c).cells parent + rest := by
  cases s with
  | leaf => exact ⟨t, rfl, rfl, h⟩
  | node c l i e r =>
    rw [Shape.paint, Shape.cells, add_assoc]
    rw [Shape.cells, add_assoc] at h
    exact update_cells h _

/-- A subtree does not hang in two places. -/
theorem root_ne {s : Shape K V} {parent : Link}
    (h : t.cells = {(n, i)} + (s.cells parent + rest)) : s.root ≠ some i := by
  intro hroot
  obtain ⟨m, rest', hm⟩ := s.exists_cell hroot parent
  rw [hm, add_assoc] at h
  exact slot_ne h rfl

/-- Where `old` is a child on one side only, it does not matter which side is looked at first. Were
it a child on both sides or on neither, the order would decide. -/
theorem replaceChild_of_child {side : Side} {p old : Nat} (first : Side) (hn : t.node? p = some n)
    (hold : n.child side = some old) (hother : n.child side.other ≠ some old) (new : Link) :
    t.replaceChild first (some p) old new = t.update p (Node.setChild side new) := by
  have hside : (if n.child first = some old then first else first.other) = side := by
    rcases first.eq_or_eq_other side with rfl | rfl
    · exact if_pos hold
    · rw [if_neg hother, Side.other_other]
  simp only [replaceChild, hn, Option.bind_eq_bind, Option.bind_some, hside]

/-- What hangs in a place is replaced, while the node that hung there keeps its cell. -/
theorem replaceChild_cells {path : Path K V} (first : Side) (hroot : t.root = path.top (some i))
    (h : t.cells = path.cells (some i) + ({(n, i)} + rest)) (new : Link) :
    ∃ t', t.replaceChild first path.link i new = some t' ∧ t'.root = path.top new ∧
      t'.cells = path.cells new + ({(n, i)} + rest) := by
  cases path with
  | nil => exact ⟨{ t with root := new }, rfl, rfl, h⟩
  | cons d path =>
    obtain ⟨side, c, j, e, sibling⟩ := d
    simp only [Path.cells] at h ⊢
    rw [add_assoc] at h
    obtain ⟨t', hupdate, hroot', hcells⟩ := update_cells h (Node.setChild side new)
    rw [Node.setChild_facing, ← add_assoc] at hcells
    refine ⟨t', ?_, hroot'.trans hroot, hcells⟩
    have hapart : t.cells = {(n, i)} + (sibling.cells (some j) +
        ({(.facing side e (Path.link path) (some i) sibling.root c, j)} +
          (Path.cells path (some j) + rest))) := by
      rw [h]
      abel
    have hsibling := root_ne hapart
    rw [Path.link, replaceChild_of_child first (node?_of_cells h) (Node.child_facing ..), hupdate]
    rwa [Node.child_other_facing]

/-- A new node gets the slot behind the last one. -/
theorem cells_push (t : Tree K V) (n : Node K V) :
    { t with nodes := t.nodes.push n }.cells = {(n, t.size)} + t.cells := by
  rw [cells, Array.toList_push, List.zipIdx_append, ← Multiset.coe_add, Nat.zero_add,
    Array.length_toList, add_comm]
  rfl

/-! ## Shapes in places -/

/-- The arena holds a shape in a place, and spare cells. -/
structure Focused (t : Tree K V) (path : Path K V) (s : Shape K V)
    (spare : Multiset (Cell K V)) : Prop where
  root_eq : t.root = path.top s.root
  cells_eq : t.cells = s.cells path.link + (path.cells s.root + spare)

variable {path : Path K V} {s : Shape K V} {d : Crumb K V} {spare : Multiset (Cell K V)}

/-- The place below a crumb and the place of its node. -/
theorem focused_cons : t.Focused (d :: path) s spare ↔ t.Focused path (d.plug s) spare := by
  have hcells : s.cells (Path.link (d :: path)) + (Path.cells (d :: path) s.root + spare) =
      (d.plug s).cells path.link + (path.cells (d.plug s).root + spare) := by
    rw [Crumb.plug, Shape.cells_join, Shape.root_join, Path.cells, Path.link]
    abel
  have hroot : Path.top (d :: path) s.root = path.top (d.plug s).root := by
    rw [Crumb.plug, Shape.root_join, Path.top]
  constructor
  · intro h
    exact ⟨h.root_eq.trans hroot, h.cells_eq.trans hcells⟩
  · intro h
    exact ⟨h.root_eq.trans hroot.symm, h.cells_eq.trans hcells.symm⟩

/-- The place of a node and the place of its child on a side. -/
theorem focused_join {side : Side} {c : Color} {e : K × V} {near far : Shape K V} :
    t.Focused path (.join side c i e near far) spare ↔
      t.Focused (⟨side, c, i, e, far⟩ :: path) near spare := by
  rw [focused_cons, Crumb.plug]

theorem focused_left {c : Color} {e : K × V} {l r : Shape K V} :
    t.Focused path (.node c l i e r) spare ↔ t.Focused (⟨.left, c, i, e, r⟩ :: path) l spare := by
  rw [← focused_join, Shape.join_left]

theorem focused_right {c : Color} {e : K × V} {l r : Shape K V} :
    t.Focused path (.node c l i e r) spare ↔ t.Focused (⟨.right, c, i, e, l⟩ :: path) r spare := by
  rw [← focused_join, Shape.join_right]

theorem focused_append (path path' : Path K V) (s : Shape K V) :
    t.Focused (path ++ path') s spare ↔ t.Focused path' (path.fill s) spare := by
  induction path generalizing s with
  | nil => rfl
  | cons d path ih => exact focused_cons.trans (ih _)

theorem focused_fill : t.Focused path s spare ↔ t.Focused [] (path.fill s) spare := by
  rw [← focused_append, List.append_nil]

section Join

variable {side : Side} {c : Color} {e : K × V} {near far : Shape K V}

theorem Focused.cells_join (h : t.Focused path (.join side c i e near far) spare) :
    t.cells = {(.facing side e path.link near.root far.root c, i)} +
      (near.cells (some i) + far.cells (some i) + (path.cells (some i) + spare)) := by
  rw [h.cells_eq, Shape.cells_join, Shape.root_join, add_assoc]

theorem Focused.node? (h : t.Focused path (.join side c i e near far) spare) :
    t.node? i = some (.facing side e path.link near.root far.root c) :=
  node?_of_cells h.cells_join

theorem Focused.recolor (h : t.Focused path (.join side c i e near far) spare) (c' : Color) :
    ∃ t', t.update i (Node.setColor c') = some t' ∧
      t'.Focused path (.join side c' i e near far) spare := by
  obtain ⟨t', hupdate, hroot, hcells⟩ := update_cells h.cells_join (Node.setColor c')
  refine ⟨t', hupdate, ?_, ?_⟩
  · rw [hroot, h.root_eq, Shape.root_join, Shape.root_join]
  · rw [hcells, Shape.cells_join, Shape.root_join, Node.setColor_facing, add_assoc {_}]

end Join

theorem Focused.cells_node {c : Color} {e : K × V} {l r : Shape K V}
    (h : t.Focused path (.node c l i e r) spare) :
    t.cells = {(⟨e.1, e.2, path.link, l.root, r.root, c⟩, i)} + (l.cells (some i) +
      (r.cells (some i) + (path.cells (some i) + spare))) := by
  rw [h.cells_eq, Shape.cells, Shape.root_node, add_assoc, add_assoc]

theorem Focused.setValue {c : Color} {e : K × V} {l r : Shape K V}
    (h : t.Focused path (.node c l i e r) spare) (v : V) :
    ∃ t', t.update i (Node.setValue v) = some t' ∧
      t'.Focused path (.node c l i (e.1, v) r) spare := by
  obtain ⟨t', hupdate, hroot, hcells⟩ := update_cells h.cells_node (Node.setValue v)
  refine ⟨t', hupdate, hroot.trans h.root_eq, ?_⟩
  rw [hcells, Shape.cells, Shape.root_node, add_assoc, add_assoc]
  rfl

theorem Focused.paint (h : t.Focused path s spare) (c : Color) :
    ∃ t', t.updateLink s.root (Node.setColor c) = some t' ∧ t'.Focused path (s.paint c) spare := by
  obtain ⟨t', hupdate, hroot, hcells⟩ := paint_cells h.cells_eq c
  refine ⟨t', hupdate, ?_, ?_⟩
  · rw [hroot, h.root_eq, Shape.root_paint]
  · rw [hcells, Shape.root_paint]

theorem Focused.color (h : t.Focused path s spare) : t.color s.root = some s.color := by
  cases s with
  | leaf => rfl
  | node c l i e r =>
    have hjoin : t.Focused path (.join .left c i e l r) spare := h
    rw [Shape.root, Tree.color, hjoin.node?]
    rfl

/-- There are more cells than nodes on the way up. -/
theorem Focused.length_add_size_le (h : t.Focused path s spare) :
    path.length + s.size ≤ t.size := by
  have hcells := congrArg Multiset.card h.cells_eq
  rw [card_cells, Multiset.card_add, Multiset.card_add, Shape.card_cells] at hcells
  have hpath := path.length_le_card s.root
  omega

/-- The node that a crumb stands for. -/
theorem Focused.crumb (h : t.Focused (d :: path) s spare) : t.node? d.slot =
    some (.facing d.side d.entry path.link s.root d.sibling.root d.color) :=
  (focused_cons.mp h).node?

/-- The node at the top of a shape leads back to the place. -/
theorem Focused.top (h : t.Focused path s spare) (hs : s.root = some i) :
    ∃ n, t.node? i = some n ∧ n.parent = path.link ∧ n.color = s.color := by
  obtain ⟨e, near, far, hjoin⟩ := Shape.exists_join hs .left
  rw [hjoin] at h
  exact ⟨_, h.node?, Node.parent_facing .left _ _ _ _ _, Node.color_facing .left _ _ _ _ _⟩

/-- The two subtrees below a crumb have different tops, unless there is nothing in both. -/
theorem Focused.sibling_ne (h : t.Focused (d :: path) s spare)
    (hsome : s.root ≠ none ∨ d.sibling.root ≠ none) : d.sibling.root ≠ s.root := by
  intro heq
  rcases hroot : s.root with - | i
  · rcases hsome with hsome | hsome
    · exact hsome hroot
    · exact hsome (heq.trans hroot)
  · obtain ⟨n, rest, hn⟩ := s.exists_cell hroot (Path.link (d :: path))
    have hapart : t.cells = {(n, i)} + (d.sibling.cells (some d.slot) + (rest +
        ({(.facing d.side d.entry (Path.link path) s.root d.sibling.root d.color, d.slot)} +
          (Path.cells path (some d.slot) + spare)))) := by
      rw [h.cells_eq, hn, Path.cells]
      abel
    exact root_ne hapart (heq.trans hroot)

/-- The nodes on the way up are not in the place. -/
theorem Focused.root_ne_slot {g : Crumb K V} (h : t.Focused path s spare) (hg : g ∈ path) :
    s.root ≠ some g.slot := by
  obtain ⟨n, rest, hcells⟩ := Path.exists_cell hg s.root
  have hapart : t.cells = {(n, g.slot)} + (s.cells path.link + (rest + spare)) := by
    rw [h.cells_eq, hcells]
    abel
  exact Tree.root_ne hapart

theorem Focused.root_ne (h : t.Focused (d :: path) s spare) : s.root ≠ t.root := by
  obtain ⟨g, hg, htop⟩ := Path.exists_top d path s.root
  rw [h.root_eq, htop]
  exact h.root_ne_slot hg

/-- Which child of the node above a place hangs there. -/
theorem Focused.side_eq (h : t.Focused (d :: path) s spare)
    (hsome : s.root ≠ none ∨ d.sibling.root ≠ none) :
    (if (Node.facing d.side d.entry path.link s.root d.sibling.root d.color).left = s.root then
      Side.left else .right) = d.side := by
  have hne := h.sibling_ne hsome
  obtain ⟨side, c, j, e, sibling⟩ := d
  cases side with
  | left => exact if_pos rfl
  | right => exact if_neg hne

/-- A place and the place beside it. -/
theorem focused_sibling {side : Side} {c : Color} {e : K × V} {near far : Shape K V} :
    t.Focused (⟨side, c, i, e, far⟩ :: path) near spare ↔
      t.Focused (⟨side.other, c, i, e, near⟩ :: path) far spare := by
  rw [← focused_join, ← focused_join, Shape.join_other]

theorem Focused.color_sibling (h : t.Focused (d :: path) s spare) :
    t.color d.sibling.root = some d.sibling.color :=
  (focused_sibling.mp h).color

theorem Focused.paint_sibling (h : t.Focused (d :: path) s spare) (c : Color) :
    ∃ t', t.updateLink d.sibling.root (Node.setColor c) = some t' ∧
      t'.Focused ({ d with sibling := d.sibling.paint c } :: path) s spare := by
  obtain ⟨t', hpaint, h'⟩ := (focused_sibling.mp h).paint c
  exact ⟨t', hpaint, focused_sibling.mpr h'⟩

theorem Focused.recolor_crumb (h : t.Focused (d :: path) s spare) (c : Color) :
    ∃ t', t.update d.slot (Node.setColor c) = some t' ∧
      t'.Focused ({ d with color := c } :: path) s spare := by
  obtain ⟨t', hupdate, h'⟩ := (focused_cons.mp h).recolor c
  exact ⟨t', hupdate, (focused_cons (d := { d with color := c })).mpr h'⟩

/-! ## Rotations -/

/-- A rotation turns an edge and leaves the rest of the arena alone. -/
theorem Focused.rotate {side : Side} {cx cy : Color} {x y : Nat} {ex ey : K × V}
    {a b c : Shape K V}
    (h : t.Focused path (.join side cx x ex a (.join side cy y ey b c)) spare) :
    ∃ t', t.rotate side x = some t' ∧
      t'.Focused path (.join side cy y ey (.join side cx x ex a b) c) spare := by
  have hroot := h.root_eq
  have hcells := h.cells_eq
  simp only [Shape.cells_join, Shape.root_join] at hroot hcells
  generalize hrest : a.cells (some x) + (c.cells (some y) + spare) = rest at hcells
  have hx : t.cells = {(.facing side ex path.link a.root (some y) cx, x)} +
      ({(.facing side ey (some x) b.root c.root cy, y)} +
        (b.cells (some y) + (path.cells (some x) + rest))) := by
    rw [hcells, ← hrest]
    abel
  have hy := hx.trans (add_left_comm _ _ _)
  -- Each of the six updates needs its own part of the sum in front.
  obtain ⟨t₁, h₁, hroot₁, hcells₁⟩ := update_cells hx (Node.setChild side.other b.root)
  have hb : t₁.cells = b.cells (some y) +
      ({(.facing side ex path.link a.root b.root cx, x)} +
        ({(.facing side ey (some x) b.root c.root cy, y)} + (path.cells (some x) + rest))) := by
    rw [hcells₁, Node.setChild_other_facing]
    abel
  obtain ⟨t₂, h₂, hroot₂, hcells₂⟩ := updateLink_cells hb (some x)
  have hy₂ : t₂.cells = {(.facing side ey (some x) b.root c.root cy, y)} +
      ({(.facing side ex path.link a.root b.root cx, x)} +
        (b.cells (some x) + (path.cells (some x) + rest))) := by
    rw [hcells₂]
    abel
  obtain ⟨t₃, h₃, hroot₃, hcells₃⟩ := update_cells hy₂ (Node.setParent path.link)
  have hpath : t₃.cells = path.cells (some x) +
      ({(.facing side ex path.link a.root b.root cx, x)} +
        ({(.facing side ey path.link b.root c.root cy, y)} + (b.cells (some x) + rest))) := by
    rw [hcells₃, Node.setParent_facing]
    abel
  have hroot₃' : t₃.root = path.top (some x) := by
    rw [hroot₃, hroot₂, hroot₁, hroot]
  obtain ⟨t₄, h₄, hroot₄, hcells₄⟩ := replaceChild_cells side hroot₃' hpath (some y)
  have hy₄ : t₄.cells = {(.facing side ey path.link b.root c.root cy, y)} +
      ({(.facing side ex path.link a.root b.root cx, x)} +
        (b.cells (some x) + (path.cells (some y) + rest))) := by
    rw [hcells₄]
    abel
  obtain ⟨t₅, h₅, hroot₅, hcells₅⟩ := update_cells hy₄ (Node.setChild side (some x))
  obtain ⟨t₆, h₆, hroot₆, hcells₆⟩ :=
    update_cells (hcells₅.trans (add_left_comm _ _ _)) (Node.setParent (some y))
  refine ⟨t₆, ?_, ?_, ?_⟩
  · simp only [Tree.rotate, node?_of_cells hx, node?_of_cells hy, Option.bind_eq_bind,
      Option.bind_some, Node.child_other_facing, Node.child_facing, Node.parent_facing, h₁, h₂, h₃,
      h₄, h₅, h₆]
  · rw [hroot₆, hroot₅, hroot₄, Shape.root_join]
  · rw [hcells₆, Node.setParent_facing, Node.setChild_facing, ← hrest]
    simp only [Shape.cells_join, Shape.root_join]
    abel

end Tree

end Dataflow.RedBlack

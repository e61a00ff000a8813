import Dataflow.Proofs.RedBlack.Check
import Dataflow.RedBlack.Erase

/-!
# Giving back a slot

The last node of an arena moves into a slot that no link names, and the links to it follow. The
shape stays as it was but for the slot of that node.

* `Shape.exists_place`, `Tree.Focused.exists_place`: every cell of a shape is a node in some place,
  and so is every slot of an arena without spare cells.
* `Shape.rename`: a shape with its slots under other names.
* `Tree.relink_cells`: the links follow a moved node.
* `Tree.Focused.compact`: the arena has one cell less and holds the shape.
-/

namespace Dataflow.RedBlack

variable {K V : Type}

/-- Every cell of a shape belongs to a node in some place. -/
theorem Shape.exists_place {s : Shape K V} {parent : Link} {n : Node K V} {i : Nat}
    (h : (n, i) ∈ s.cells parent) :
    ∃ (path : Path K V) (c : Color) (l : Shape K V) (e : K × V) (r : Shape K V),
      s = path.fill (.node c l i e r) := by
  induction s generalizing parent with
  | leaf => exact absurd h (Multiset.notMem_zero _)
  | node c l j e r ihl ihr =>
    rw [cells] at h
    rcases Multiset.mem_add.mp h with h | h
    · obtain ⟨-, rfl⟩ := Prod.mk.inj (Multiset.mem_singleton.mp h)
      exact ⟨[], c, l, e, r, rfl⟩
    · rcases Multiset.mem_add.mp h with h | h
      · obtain ⟨path, c', l', e', r', hl⟩ := ihl h
        refine ⟨path ++ [⟨.left, c, j, e, r⟩], c', l', e', r', ?_⟩
        rw [Path.fill_append, ← hl]
        rfl
      · obtain ⟨path, c', l', e', r', hr⟩ := ihr h
        refine ⟨path ++ [⟨.right, c, j, e, l⟩], c', l', e', r', ?_⟩
        rw [Path.fill_append, ← hr]
        rfl

/-! ## Slots under other names -/

namespace Shape

variable {s s' : Shape K V} {n : Nat} (f : Nat → Nat)

/-- The same shape, its slots under other names. -/
def rename (f : Nat → Nat) : Shape K V → Shape K V
  | leaf => leaf
  | node c l i e r => node c (l.rename f) (f i) e (r.rename f)

@[simp] theorem root_rename (s : Shape K V) : (s.rename f).root = s.root.map f := by
  cases s <;> rfl

@[simp] theorem color_rename (s : Shape K V) : (s.rename f).color = s.color := by
  cases s <;> rfl

@[simp] theorem toList_rename (s : Shape K V) : (s.rename f).toList = s.toList := by
  induction s with
  | leaf => rfl
  | node c l i e r ihl ihr => rw [rename, toList, toList, ihl, ihr]

@[simp] theorem size_rename (s : Shape K V) : (s.rename f).size = s.size := by
  rw [← length_toList, toList_rename, length_toList]

/-- Balance does not depend on slots. -/
theorem Balanced.rename (h : s.Balanced n) : (s.rename f).Balanced n := by
  induction h with
  | leaf => exact .leaf
  | red hl hr _ _ ihl ihr =>
    exact .red ((color_rename f _).trans hl) ((color_rename f _).trans hr) ihl ihr
  | black _ _ ihl ihr => exact .black ihl ihr

variable {f}

theorem rename_eq_self (h : ∀ i ∈ s.slots, f i = i) : s.rename f = s := by
  induction s with
  | leaf => rfl
  | node c l i e r ihl ihr =>
    rw [slots, List.forall_mem_append, List.forall_mem_cons] at h
    rw [rename, ihl h.1, h.2.1, ihr h.2.2]

/-- Shapes that have the same names may replace each other. -/
theorem rename_fill_congr (path : Path K V) (h : s.rename f = s'.rename f) :
    (path.fill s).rename f = (path.fill s').rename f := by
  induction path generalizing s s' with
  | nil => exact h
  | cons d path ih =>
    refine ih ?_
    obtain ⟨side, c, i, e, sibling⟩ := d
    cases side <;> simp only [Crumb.plug, join, rename, h]

end Shape

namespace Tree

variable {t : Tree K V} {path : Path K V} {s : Shape K V} {n m : Node K V} {i z : Nat}
  {rest spare : Multiset (Cell K V)}

/-! ## The arena -/

theorem lt_of_node? (h : t.node? i = some n) : i < t.size :=
  (Array.getElem?_eq_some_iff.mp h).1

theorem exists_cell (h : i < t.size) : ∃ n rest, t.cells = {(n, i)} + rest := by
  have hmem : i ∈ t.cells.map Prod.snd := by
    rw [slots_cells]
    exact Multiset.mem_range.mpr h
  obtain ⟨⟨n, j⟩, hcell, rfl⟩ := Multiset.mem_map.mp hmem
  obtain ⟨rest, hrest⟩ := Multiset.exists_cons_of_mem hcell
  exact ⟨n, rest, hrest⟩

/-- Every slot of the arena belongs to a node of the tree. -/
theorem Focused.exists_place (h : t.Focused [] s 0) (hi : i < t.size) :
    ∃ (path : Path K V) (c : Color) (l : Shape K V) (e : K × V) (r : Shape K V),
      s = path.fill (.node c l i e r) ∧ t.Focused path (.node c l i e r) 0 := by
  obtain ⟨node, rest, hcell⟩ := exists_cell hi
  have hmem : (node, i) ∈ s.cells none := by
    have hcells := h.cells_eq
    rw [Path.cells, add_zero, add_zero] at hcells
    rw [← Path.link_nil, ← hcells, hcell]
    exact Multiset.mem_add.mpr (Or.inl (Multiset.mem_singleton_self _))
  obtain ⟨path, c, l, e, r, rfl⟩ := Shape.exists_place hmem
  exact ⟨path, c, l, e, r, rfl, focused_fill.mpr h⟩

theorem cells_set (h : t.cells = {(n, i)} + rest) (m : Node K V) :
    { t with nodes := t.nodes.setIfInBounds i m }.cells = {(m, i)} + rest := by
  obtain ⟨before, after, hsplit, rfl, rfl⟩ := exists_split h
  refine cells_of_split ?_ rfl
  rw [Array.toList_setIfInBounds, hsplit]
  simp

theorem cells_pop (h : t.cells = {(n, i)} + rest) (hlast : t.size = i + 1) :
    { t with nodes := t.nodes.pop }.cells = rest := by
  obtain ⟨before, after, hsplit, rfl, rfl⟩ := exists_split h
  obtain rfl : after = [] := by
    rw [size, ← Array.length_toList, hsplit, List.length_append, List.length_cons] at hlast
    exact List.eq_nil_of_length_eq_zero (by omega)
  rw [cells, Array.toList_pop, hsplit]
  simp

/-! ## The links -/

section Relink

variable {c : Color} {e : K × V} {l r : Shape K V} {old new : Nat}

/-- The link of the parent follows a node to its new slot. -/
theorem relink_parent (h : t.cells = path.cells (some old) + rest)
    (hsibling : ∀ d ∈ path.head?, d.sibling.root ≠ some old) (new : Nat) :
    ∃ t', (path.link = none ∧ t' = t ∨
        ∃ p np, path.link = some p ∧ t.node? p = some np ∧
          (np.left = some old ∧ t.update p (Node.setChild .left (some new)) = some t' ∨
            np.left ≠ some old ∧ np.right = some old ∧
              t.update p (Node.setChild .right (some new)) = some t')) ∧
      t'.root = t.root ∧ t'.cells = path.cells (some new) + rest := by
  cases path with
  | nil => exact ⟨t, Or.inl ⟨rfl, rfl⟩, rfl, h⟩
  | cons d path =>
    obtain ⟨side, dc, j, ed, sibling⟩ := d
    rw [Path.cells, add_assoc] at h
    obtain ⟨t', hupdate, hroot, hcells⟩ := update_cells h (Node.setChild side (some new))
    rw [Node.setChild_facing, ← add_assoc] at hcells
    have hne : sibling.root ≠ some old := hsibling ⟨side, dc, j, ed, sibling⟩ rfl
    refine ⟨t', Or.inr ⟨j, _, rfl, node?_of_cells h, ?_⟩, hroot, hcells⟩
    cases side with
    | left => exact Or.inl ⟨rfl, hupdate⟩
    | right => exact Or.inr ⟨hne, rfl, hupdate⟩

/-- All links follow a node that was moved into a spare slot. -/
theorem relink_cells
    (h : t.cells = {(⟨e.1, e.2, path.link, l.root, r.root, c⟩, new)} + (l.cells (some old) +
      (r.cells (some old) + (path.cells (some old) + spare))))
    (hroot : t.root = path.top (some old)) (hne : path ≠ [] → t.root ≠ some old)
    (hsibling : ∀ d ∈ path.head?, d.sibling.root ≠ some old) :
    ∃ t', t.relink old new = some t' ∧ t'.Focused path (.node c l new e r) spare := by
  obtain ⟨t₁, h₁, hroot₁, hcells₁⟩ : ∃ t₁ : Tree K V,
      (if t.root = some old then { t with root := some new } else t) = t₁ ∧
        t₁.root = path.top (some new) ∧ t₁.cells = t.cells := by
    cases path with
    | nil => exact ⟨_, if_pos hroot, rfl, rfl⟩
    | cons d path => exact ⟨_, if_neg (hne (by simp)), hroot, rfl⟩
  have hparent : t₁.cells = path.cells (some old) +
      ({(⟨e.1, e.2, path.link, l.root, r.root, c⟩, new)} + (l.cells (some old) +
        (r.cells (some old) + spare))) := by
    rw [hcells₁, h]
    abel
  obtain ⟨t₂, h₂, hroot₂, hcells₂⟩ := relink_parent hparent hsibling new
  have hl : t₂.cells = l.cells (some old) +
      ({(⟨e.1, e.2, path.link, l.root, r.root, c⟩, new)} + (r.cells (some old) +
        (path.cells (some new) + spare))) := by
    rw [hcells₂]
    abel
  obtain ⟨t₃, h₃, hroot₃, hcells₃⟩ := updateLink_cells hl (some new)
  have hr : t₃.cells = r.cells (some old) +
      ({(⟨e.1, e.2, path.link, l.root, r.root, c⟩, new)} + (l.cells (some new) +
        (path.cells (some new) + spare))) := by
    rw [hcells₃]
    abel
  obtain ⟨t₄, h₄, hroot₄, hcells₄⟩ := updateLink_cells hr (some new)
  refine ⟨t₄, ?_, ?_, ?_⟩
  · rw [← hcells₁] at h
    have hnew₁ := node?_of_cells h
    have hnew₂ := node?_of_cells (hl.trans (add_left_comm _ _ _))
    simp only [relink, h₁, hnew₁, Option.bind_eq_bind, Option.bind_some]
    rcases h₂ with ⟨hlink, rfl⟩ | ⟨p, np, hlink, hp, ⟨hleft, h₂⟩ | ⟨hleft, hright, h₂⟩⟩
    · simp only [hlink, h₃, h₄, Option.bind_some]
    · simp only [hlink] at hnew₂ ⊢
      simp only [hp, hleft, h₂, hnew₂, h₃, h₄, if_true, Option.bind_some]
    · simp only [hlink] at hnew₂ ⊢
      simp only [hp, hleft, hright, h₂, hnew₂, h₃, h₄, if_true, if_false, Option.bind_some]
  · rw [hroot₄, hroot₃, hroot₂, hroot₁, Shape.root_node]
  · rw [hcells₄, Shape.cells, Shape.root_node]
    abel

/-- The last node moves into a slot that belongs to no shape, and all links follow it. -/
theorem Focused.moveLast (h : t.Focused path (.node c l old e r) {(n, new)})
    (hlast : t.size = old + 1) :
    ∃ t', relink { t with nodes :=
        (t.nodes.setIfInBounds new ⟨e.1, e.2, path.link, l.root, r.root, c⟩).pop } old new =
          some t' ∧ t'.Focused path (.node c l new e r) 0 := by
  have hspare : t.cells = {(n, new)} + ({(⟨e.1, e.2, path.link, l.root, r.root, c⟩, old)} +
      (l.cells (some old) + (r.cells (some old) + (path.cells (some old) + 0)))) := by
    rw [h.cells_node]
    abel
  have hset := cells_set hspare ⟨e.1, e.2, path.link, l.root, r.root, c⟩
  have hpop := cells_pop (hset.trans (add_left_comm _ _ _)) (by
    rw [size, Array.size_setIfInBounds]
    exact hlast)
  have hroot := h.root_eq
  rw [Shape.root_node] at hroot
  have hne : path ≠ [] → t.root ≠ some old := by
    intro hpath
    cases path with
    | nil => exact absurd rfl hpath
    | cons d path => exact h.root_ne.symm
  have hsibling : ∀ d ∈ path.head?, d.sibling.root ≠ some old := by
    intro d hd
    cases path with
    | nil => cases hd
    | cons g path =>
      cases hd
      exact h.sibling_ne (Or.inl (by simp))
  exact relink_cells hpop hroot hne hsibling

end Relink

theorem Focused.cells_spare (h : t.Focused [] s {(n, z)}) :
    t.cells = {(n, z)} + s.cells none := by
  rw [h.cells_eq, Path.cells, zero_add, add_comm]
  rfl

/-- The arena after a slot was given back holds the same shape, up to the slot of the last node. -/
theorem Focused.exists_compact (h : t.Focused [] s {(n, z)}) :
    ∃ t' s', t.compact z = some (n.entry, t') ∧ t'.Focused [] s' 0 ∧
      s'.rename (Function.update id (t.size - 1) z) =
        s.rename (Function.update id (t.size - 1) z) := by
  have hz := h.cells_spare
  have hlt := lt_of_node? (node?_of_cells hz)
  have hsize : t.size = t.size - 1 + 1 := by omega
  obtain ⟨m, rest, hm⟩ : ∃ m rest, t.cells = {(m, t.size - 1)} + rest := exists_cell (by omega)
  unfold Tree.compact
  simp only [node?_of_cells hz, node?_of_cells hm, Option.bind_eq_bind, Option.bind_some]
  by_cases hlast : z = t.size - 1
  · refine ⟨⟨t.nodes.pop, t.root⟩, s, by rw [if_pos hlast]; rfl, ⟨h.root_eq, ?_⟩, rfl⟩
    rw [cells_pop hz (by omega), Path.cells, zero_add, add_zero]
    rfl
  · rw [if_neg hlast]
    generalize t.size - 1 = last at hm hlast hsize ⊢
    have hmem : (m, last) ∈ t.cells := by
      rw [hm]
      exact Multiset.mem_add.mpr (Or.inl (Multiset.mem_singleton_self _))
    rw [hz] at hmem
    rcases Multiset.mem_add.mp hmem with hmem | hmem
    · exact absurd (congrArg Prod.snd (Multiset.mem_singleton.mp hmem)).symm hlast
    obtain ⟨path, c, l, e, r, rfl⟩ := Shape.exists_place hmem
    have hplace := focused_fill.mpr h
    obtain rfl : m = ⟨e.1, e.2, path.link, l.root, r.root, c⟩ :=
      Option.some.inj ((node?_of_cells hm).symm.trans (node?_of_cells hplace.cells_node))
    obtain ⟨t', hrelink, h'⟩ := hplace.moveLast hsize
    refine ⟨t', path.fill (.node c l z e r), ?_, focused_fill.mp h', ?_⟩
    · exact congrArg (Option.bind · fun t => some (n.entry, t)) hrelink
    · refine Shape.rename_fill_congr path ?_
      rw [Shape.rename, Shape.rename, Function.update_self, Function.update_of_ne hlast]
      rfl

/-- Giving back a slot that belongs to no shape. -/
theorem Focused.compact (h : t.Focused [] s {(n, z)}) :
    ∃ t', t.compact z = some (n.entry, t') ∧ t'.size + 1 = t.size ∧
      t'.Focused [] (s.rename (Function.update id (t.size - 1) z)) 0 := by
  obtain ⟨t', s', hcompact, h', hrename⟩ := h.exists_compact
  have hcard : s.size + 1 = t.size := by
    rw [← card_cells, h.cells_spare, Multiset.card_add, Shape.card_cells, Multiset.card_singleton,
      Nat.add_comm]
  have hcard' : s'.size = t'.size := by
    rw [← Shape.length_slots, h'.slots_perm.length_eq, List.length_range]
  have hsize : t'.size + 1 = t.size := by
    rw [← hcard, ← hcard', ← Shape.size_rename, hrename, Shape.size_rename]
  refine ⟨t', hcompact, hsize, ?_⟩
  -- The slot of the last node is not there any more, so that nothing is left to be renamed.
  have hself : s'.rename (Function.update id (t.size - 1) z) = s' := by
    refine Shape.rename_eq_self fun i hi => ?_
    have hlt := List.mem_range.mp (h'.slots_perm.mem_iff.mp hi)
    exact Function.update_of_ne (by omega) _ _
  rwa [← hrename, hself]

end Tree

end Dataflow.RedBlack

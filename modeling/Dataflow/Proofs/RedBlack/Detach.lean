import Dataflow.Proofs.RedBlack.Gap
import Dataflow.Proofs.RedBlack.Walk

/-!
# Taking a node out of an arena

A node with at most one child is replaced by it. A node with two children is replaced by its
successor, which has no left child and so leaves its own place to its right child. Either way, one
place is left that may lack a black node, and the cell of the removed node is spare.

* `Tree.graft_cells`: one subtree in the place of another.
* `Tree.Focused.detach`: the node is gone, and where the gap is.
* `Tree.Focused.removeNode`: the gap is filled.
-/

namespace Dataflow.RedBlack.Tree

variable {K V : Type} {t : Tree K V} {path : Path K V} {s : Shape K V}
  {spare rest : Multiset (Cell K V)} {n : Nat}

/-- The subtree `v` takes the place of the node `u`, whose cell stays as it was. -/
theorem graft_cells {u : Nat} {nu : Node K V} {v : Shape K V} {parent : Link}
    (hroot : t.root = path.top (some u)) (hparent : nu.parent = path.link)
    (h : t.cells = {(nu, u)} + (v.cells parent + (path.cells (some u) + rest))) :
    ∃ t', t.graft u v.root = some t' ∧ t'.root = path.top v.root ∧
      t'.cells = {(nu, u)} + (v.cells path.link + (path.cells v.root + rest)) := by
  have hpath : t.cells = path.cells (some u) + ({(nu, u)} + (v.cells parent + rest)) := by
    rw [h]
    abel
  obtain ⟨t₁, h₁, hroot₁, hcells₁⟩ := replaceChild_cells .left hroot hpath v.root
  have hv : t₁.cells = v.cells parent + ({(nu, u)} + (path.cells v.root + rest)) := by
    rw [hcells₁]
    abel
  obtain ⟨t₂, h₂, hroot₂, hcells₂⟩ := updateLink_cells hv path.link
  refine ⟨t₂, ?_, hroot₂.trans hroot₁, ?_⟩
  · simp only [graft, node?_of_cells h, hparent, h₁, h₂, Option.bind_eq_bind, Option.bind_some]
  · rw [hcells₂]
    abel

/-- A node with a child on one side only is replaced by it. -/
theorem Focused.graft {side : Side} {c : Color} {z : Nat} {e : K × V} {child : Shape K V}
    (h : t.Focused path (.join side c z e .leaf child) spare) :
    ∃ t', t.graft z child.root = some t' ∧ t'.Focused path child
      ({(.facing side e path.link none child.root c, z)} + spare) := by
  have hcells : t.cells = {(.facing side e path.link none child.root c, z)} +
      (child.cells (some z) + (path.cells (some z) + spare)) := by
    rw [h.cells_join, Shape.cells, zero_add]
    rfl
  have hroot := h.root_eq
  rw [Shape.root_join] at hroot
  obtain ⟨t', hgraft, hroot', hcells'⟩ := graft_cells hroot (Node.parent_facing ..) hcells
  refine ⟨t', hgraft, hroot', ?_⟩
  rw [hcells']
  abel

/-! ## The successor takes the place -/

section Successor

variable {c cy : Color} {z y : Nat} {e ey : K × V} {l r ry : Shape K V} {down : Path K V}

/-- The successor `y` of a node has been taken out of the right subtree and hangs above what is
left of that, while `z` is still in its place. -/
structure Lifted (t : Tree K V) (path : Path K V) (nz : Node K V) (z : Nat) (l : Shape K V)
    (cy : Color) (y : Nat) (ey : K × V) (r : Shape K V) (spare : Multiset (Cell K V)) : Prop where
  root_eq : t.root = path.top (some z)
  cells_eq : ∃ parent, t.cells = {(nz, z)} + (l.cells (some z) +
    ((Shape.node cy .leaf y ey r).cells parent + (path.cells (some z) + spare)))

/-- The end of a removal: the successor goes into the place of the node. -/
theorem Lifted.graft {nz : Node K V} {lz : Nat} (h : t.Lifted path nz z l cy y ey r spare)
    (hparent : nz.parent = path.link) (hl : l.root = some lz) (c : Color) :
    ∃ t₁ t₂ t₃ t₄, t.graft z (some y) = some t₁ ∧
      t₁.update y (Node.setChild .left (some lz)) = some t₂ ∧
      t₂.update lz (Node.setParent (some y)) = some t₃ ∧
      t₃.update y (Node.setColor c) = some t₄ ∧
      t₄.Focused path (.node c l y ey r) ({(nz, z)} + spare) := by
  obtain ⟨hroot, parent, hcells⟩ := h
  generalize hY : Shape.node cy .leaf y ey r = lifted at hcells
  have hz : t.cells = {(nz, z)} +
      (lifted.cells parent + (path.cells (some z) + (l.cells (some z) + spare))) := by
    rw [hcells]
    abel
  obtain ⟨t₁, h₁, hroot₁, hcells₁⟩ := graft_cells hroot hparent hz
  subst hY
  have hy₁ : t₁.cells = {(⟨ey.1, ey.2, path.link, none, r.root, cy⟩, y)} + (r.cells (some y) +
      (path.cells (some y) + (l.cells (some z) + ({(nz, z)} + spare)))) := by
    rw [hcells₁]
    simp only [Shape.cells, Shape.root_node, Shape.root_leaf, zero_add]
    abel
  obtain ⟨t₂, h₂, hroot₂, hcells₂⟩ := update_cells hy₁ (Node.setChild .left (some lz))
  have hl₂ : t₂.cells = l.cells (some z) + ({(⟨ey.1, ey.2, path.link, some lz, r.root, cy⟩, y)} +
      (r.cells (some y) + (path.cells (some y) + ({(nz, z)} + spare)))) := by
    rw [hcells₂]
    simp only [Node.setChild]
    abel
  obtain ⟨t₃, h₃, hroot₃, hcells₃⟩ := updateLink_cells hl₂ (some y)
  rw [hl] at h₃
  have hy₃ := hcells₃.trans (add_left_comm _ _ _)
  obtain ⟨t₄, h₄, hroot₄, hcells₄⟩ := update_cells hy₃ (Node.setColor c)
  refine ⟨t₁, t₂, t₃, t₄, h₁, h₂, h₃, h₄, ?_, ?_⟩
  · rw [hroot₄, hroot₃, hroot₂, hroot₁]
    rfl
  · rw [hcells₄]
    simp only [Shape.cells, Shape.root_node, hl, Node.setColor]
    abel

/-- A successor that is no child of the node leaves its place to its right child. -/
theorem Focused.lift {d : Crumb K V} {rz : Nat}
    (h : t.Focused path (.node c l z e (Path.fill (d :: down) (.node cy .leaf y ey ry))) spare)
    (hroot : (Path.fill (d :: down) ry).root = some rz) :
    ∃ t₁ t₂ t₃, t.graft y ry.root = some t₁ ∧
      t₁.update y (Node.setChild .right (some rz)) = some t₂ ∧
      t₂.update rz (Node.setParent (some y)) = some t₃ ∧
      t₃.Lifted path ⟨e.1, e.2, path.link, l.root, some rz, c⟩ z l cy y ey
        (Path.fill (d :: down) ry) spare := by
  have hy : t.Focused (d :: down ++ ⟨.right, c, z, e, l⟩ :: path) (.join .left cy y ey .leaf ry)
      spare := (focused_append _ _ _).mpr (focused_right.mp h)
  obtain ⟨t₁, h₁, hy₁⟩ := hy.graft
  have hz₁ := focused_right.mpr ((focused_append _ _ _).mp hy₁)
  generalize Path.fill (d :: down) ry = r at hroot hz₁
  have hcells₁ : t₁.cells = {(.facing .left ey (some d.slot) none ry.root cy, y)} +
      ({(⟨e.1, e.2, path.link, l.root, some rz, c⟩, z)} + (l.cells (some z) +
        (r.cells (some z) + (path.cells (some z) + spare)))) := by
    rw [hz₁.cells_eq, Shape.cells, hroot, Shape.root_node, List.cons_append,
      Path.link_cons]
    abel
  obtain ⟨t₂, h₂, hroot₂, hcells₂⟩ := update_cells hcells₁ (Node.setChild .right (some rz))
  have hr₂ : t₂.cells = r.cells (some z) + ({(⟨ey.1, ey.2, some d.slot, none, some rz, cy⟩, y)} +
      ({(⟨e.1, e.2, path.link, l.root, some rz, c⟩, z)} + (l.cells (some z) +
        (path.cells (some z) + spare)))) := by
    rw [hcells₂]
    simp only [Node.setChild, Node.facing]
    abel
  obtain ⟨t₃, h₃, hroot₃, hcells₃⟩ := updateLink_cells hr₂ (some y)
  rw [hroot] at h₃
  refine ⟨t₁, t₂, t₃, h₁, h₂, h₃, ?_, some d.slot, ?_⟩
  · rw [hroot₃, hroot₂, hz₁.root_eq, Shape.root_node]
  · rw [hcells₃]
    simp only [Shape.cells, Shape.root_leaf, hroot, zero_add]
    abel

/-- The successor is lifted, whether or not it is a child of the node. The gap is below the
successor itself, or where the successor was. -/
theorem Focused.exists_lifted {rz : Nat}
    (h : t.Focused path (.node c l z e (down.fill (.node cy .leaf y ey ry))) spare)
    (hroot : (down.fill (.node cy .leaf y ey ry)).root = some rz) :
    ∃ t', t'.Lifted path ⟨e.1, e.2, path.link, l.root, some rz, c⟩ z l cy y ey (down.fill ry)
        spare ∧
      (Path.link (down ++ ⟨.right, c, z, e, l⟩ :: path) = some z ∧ t' = t ∧
          Path.link (down ++ ⟨.right, c, y, ey, l⟩ :: path) = some y ∨
        Path.link (down ++ ⟨.right, c, z, e, l⟩ :: path) ≠ some z ∧
          (∃ t₁ t₂, t.graft y ry.root = some t₁ ∧
            t₁.update y (Node.setChild .right (some rz)) = some t₂ ∧
            t₂.update rz (Node.setParent (some y)) = some t') ∧
          Path.link (down ++ ⟨.right, c, y, ey, l⟩ :: path) =
            Path.link (down ++ ⟨.right, c, z, e, l⟩ :: path)) := by
  cases down with
  | nil =>
    refine ⟨t, ⟨h.root_eq, some z, ?_⟩, Or.inl ⟨rfl, rfl, rfl⟩⟩
    rw [h.cells_eq]
    simp only [Path.fill, Shape.root_node] at hroot ⊢
    rw [Shape.cells, Shape.root_node, hroot]
    abel
  | cons d down =>
    have hy := focused_append (d :: down) _ _ |>.mpr (focused_right.mp h)
    have hne : some d.slot ≠ some z := by
      have hd := focused_cons.mp hy
      have hslot := hd.root_ne_slot (g := ⟨.right, c, z, e, l⟩) (by simp)
      rwa [Crumb.root_plug] at hslot
    have hroot' : (Path.fill (d :: down) ry).root = some rz := by
      rw [Path.root_fill] at hroot ⊢
      exact hroot
    obtain ⟨t₁, t₂, t₃, h₁, h₂, h₃, h'⟩ := h.lift hroot'
    exact ⟨t₃, h', Or.inr ⟨hne, ⟨t₁, t₂, h₁, h₂, h₃⟩, rfl⟩⟩

end Successor

/-! ## Removal -/

/-- A node was taken out of a balanced tree, and a place is left where a node of the color
`d.removed` had the shape `x` as its only child. -/
structure Removal (d : Detached K V) (z : Nat) (e : K × V) (entries : List (K × V))
    (spare : Multiset (Cell K V)) (path : Path K V) (x : Shape K V) : Prop where
  focused : ∃ nz, nz.entry = e ∧ d.tree.Focused path x ({(nz, z)} + spare)
  gap_eq : d.gap = x.root
  gapParent_eq : d.gapParent = path.link
  balanced : ∃ side i e' n, (Shape.join side d.removed i e' .leaf x).Balanced n ∧
    path.Accepts d.removed n
  toList_eq : (path.fill x).toList = entries

/-- Where a black node went away there is a gap. -/
theorem Removal.gapAt {d : Detached K V} {z : Nat} {e : K × V} {entries : List (K × V)}
    {x : Shape K V} (h : Removal d z e entries spare path x) (hblack : d.removed = .black) :
    ∃ nz n, nz.entry = e ∧ d.tree.GapAt path x ({(nz, z)} + spare) n := by
  obtain ⟨⟨nz, hentry, hx⟩, -, -, ⟨side, i, e', n, hn, hpath⟩, -⟩ := h
  rw [hblack] at hn hpath
  obtain ⟨n, rfl, -, hxn⟩ := hn.exists_black
  exact ⟨nz, n, hentry, hx, hxn.lacks, hpath⟩

section Detach

variable {c : Color} {z : Nat} {e : K × V} {l r : Shape K V} {m : Nat}

theorem Focused.detach_one (side : Side) {child : Shape K V}
    (h : t.Focused path (.join side c z e .leaf child) spare)
    (hm : (path.fill (.join side c z e .leaf child)).Balanced m)
    (hroot : (path.fill (.join side c z e .leaf child)).color = .black) :
    ∃ d, t.detach z = some d ∧
      Removal d z e (path.before ++ (child.toList ++ path.after)) spare path child := by
  obtain ⟨n, hn, hpath⟩ := Path.accepts_of_fill hm hroot
  rw [Shape.color_join] at hpath
  obtain ⟨t', hgraft, h'⟩ := h.graft
  refine ⟨⟨t', c, child.root, path.link⟩, ?_, ⟨⟨_, by simp, h'⟩, rfl, rfl,
    ⟨side, z, e, n, hn, hpath⟩, Path.toList_fill _ _⟩⟩
  rw [Tree.detach, h.node?]
  cases side with
  | left =>
    rw [Shape.root_leaf] at *
    simp only [Node.facing, hgraft, Option.bind_eq_bind, Option.bind_some]
    rfl
  | right =>
    cases child with
    | leaf =>
      simp only [Node.facing, Shape.root_leaf, Option.bind_eq_bind, Option.bind_some] at hgraft ⊢
      rw [hgraft]
      rfl
    | node c' l' i' e' r' =>
      simp only [Node.facing, Shape.root_node, Shape.root_leaf, Option.bind_eq_bind,
        Option.bind_some] at hgraft ⊢
      rw [hgraft]
      rfl

/-- A node with two children, whose successor lies at the end of the way down from its right
child. -/
theorem Focused.detach_two {cy : Color} {y : Nat} {ey : K × V} {ry : Shape K V}
    {down : Path K V}
    (h : t.Focused path (.node c l z e (down.fill (.node cy .leaf y ey ry))) spare)
    (hm : (path.fill (.node c l z e (down.fill (.node cy .leaf y ey ry)))).Balanced m)
    (hroot : (path.fill (.node c l z e (down.fill (.node cy .leaf y ey ry)))).color = .black)
    {lz rz : Nat} (hl : l.root = some lz)
    (hr : (down.fill (.node cy .leaf y ey ry)).root = some rz)
    (hdown : ∀ d ∈ down, d.side = .left) (hdescend : t.descend .left rz = some y) :
    ∃ d, t.detach z = some d ∧
      Removal d z e (path.before ++ (l.toList ++
        ((down.fill (.node cy .leaf y ey ry)).toList ++ path.after))) spare
        (down ++ ⟨.right, c, y, ey, l⟩ :: path) ry := by
  have hz : t.Focused path (.join .left c z e l (down.fill (.node cy .leaf y ey ry))) spare := h
  have hy : t.Focused (down ++ ⟨.right, c, z, e, l⟩ :: path) (.join .left cy y ey .leaf ry) spare :=
    (focused_append down _ _).mpr (focused_right.mp h)
  have hnz := hz.node?
  rw [hl, hr] at hnz
  obtain ⟨t₁, hlifted, h₁⟩ := h.exists_lifted hr
  obtain ⟨t₂, t₃, t₄, t₅, h₂, h₃, h₄, h₅, h'⟩ := hlifted.graft rfl hl c
  have hy' := (focused_append down _ _).mpr (focused_right.mp h')
  refine ⟨⟨t₅, cy, ry.root, Path.link (down ++ ⟨.right, c, y, ey, l⟩ :: path)⟩, ?_,
    ⟨⟨_, rfl, hy'⟩, rfl, rfl, ?_, ?_⟩⟩
  · rw [Tree.detach, hnz]
    simp only [Node.facing, hdescend, hy.node?, Option.bind_eq_bind, Option.bind_some]
    rcases h₁ with ⟨hchild, rfl, hlink⟩ | ⟨hchild, ⟨t₆, t₇, h₆, h₇, h₈⟩, hlink⟩
    · rw [if_pos hchild, Option.pure_def, Option.bind_some, h₂, Option.bind_some, h₃,
        Option.bind_some, h₄, Option.bind_some, h₅, hlink]
      rfl
    · rw [if_neg hchild, h₆, Option.bind_some, h₇, Option.bind_some, h₈, Option.bind_some,
        Option.pure_def, Option.bind_some, h₂, Option.bind_some, h₃, Option.bind_some, h₄,
        Option.bind_some, h₅, hlink]
      rfl
  · have hfill := Path.fill_append down (⟨.right, c, z, e, l⟩ :: path) (.node cy .leaf y ey ry)
    obtain ⟨n, hn, hpath⟩ := Path.accepts_of_fill (hfill ▸ hm) (hfill ▸ hroot)
    have htail : ∀ c' n', Path.Accepts (⟨.right, c, z, e, l⟩ :: path) c' n' →
        Path.Accepts (⟨.right, c, y, ey, l⟩ :: path) c' n' := fun _ _ h => h
    exact ⟨.left, y, ey, n, hn, hpath.append htail⟩
  · rw [Path.fill_append, Path.fill, Path.toList_fill, Crumb.plug, Shape.join_right, Shape.toList,
      Path.toList_fill, Path.toList_fill, Path.before_eq_nil hdown]
    simp [Shape.toList]

/-- A node is taken out of a balanced tree. The place that is left lies no deeper than the tree was
high. -/
theorem Focused.detach (h : t.Focused path (.node c l z e r) spare)
    (hm : (path.fill (.node c l z e r)).Balanced m)
    (hroot : (path.fill (.node c l z e r)).color = .black) :
    ∃ d path' x, t.detach z = some d ∧ path'.length < (path.fill (.node c l z e r)).height ∧
      Removal d z e (path.before ++ (l.toList ++ (r.toList ++ path.after))) spare path' x := by
  cases hl : l.root with
  | none =>
    obtain rfl := Shape.eq_leaf hl
    obtain ⟨d, hdetach, hremoval⟩ := Focused.detach_one .left h hm hroot
    exact ⟨d, path, r, hdetach, path.length_lt_height rfl, hremoval⟩
  | some lz =>
    cases hr : r.root with
    | none =>
      obtain rfl := Shape.eq_leaf hr
      obtain ⟨d, hdetach, hremoval⟩ := Focused.detach_one .right h hm hroot
      exact ⟨d, path, l, hdetach, path.length_lt_height rfl, hremoval⟩
    | some rz =>
      obtain ⟨down, cy, y, ey, ry, hdescend, rfl, hdown⟩ := (focused_right.mp h).descend hr .left
      obtain ⟨d, hdetach, hremoval⟩ := h.detach_two hm hroot hl hr hdown hdescend
      have hdepth := (down ++ ⟨.right, c, z, e, l⟩ :: path).length_lt_height
        (Shape.root_node cy .leaf y ey ry)
      rw [Path.fill_append, List.length_append, List.length_cons] at hdepth
      refine ⟨d, _, ry, hdetach, ?_, hremoval⟩
      rw [List.length_append, List.length_cons]
      exact hdepth

end Detach

/-- A node is taken out of a balanced tree, and the gap is filled. Its cell is left. -/
theorem Focused.removeNode {c : Color} {z : Nat} {e : K × V} {l r : Shape K V} {m : Nat}
    (h : t.Focused path (.node c l z e r) spare) (hm : (path.fill (.node c l z e r)).Balanced m)
    (hroot : (path.fill (.node c l z e r)).color = .black) :
    ∃ t' nz, t.removeNode z = some t' ∧ nz.entry = e ∧ t'.HoldsBalanced ({(nz, z)} + spare)
      (path.before ++ (l.toList ++ (r.toList ++ path.after))) := by
  obtain ⟨d, path', x, hdetach, -, hremoval⟩ := h.detach hm hroot
  unfold Tree.removeNode
  rw [hdetach, Option.bind_eq_bind, Option.bind_some]
  cases hcolor : d.removed with
  | red =>
    obtain ⟨⟨nz, hentry, hx⟩, -, -, ⟨side, i, e', n, hn, hpath⟩, hlist⟩ := hremoval
    rw [hcolor] at hn hpath
    obtain ⟨-, hblack, -, hxn⟩ := Shape.balanced_join_red.mp hn
    have hpath' : path'.Accepts x.color n := by
      rw [hblack]
      exact hpath.weaken
    obtain ⟨k, hk, hk'⟩ := hpath'.fill hxn
    rw [if_neg (by simp)]
    exact ⟨d.tree, nz, rfl, hentry, _, k, focused_fill.mp hx, hk, hk', hlist⟩
  | black =>
    obtain ⟨nz, n, hentry, hlack⟩ := hremoval.gapAt hcolor
    have hlength : path'.length < d.tree.size + 1 :=
      Nat.lt_succ_of_le (Nat.le_trans (Nat.le_add_right _ _) hlack.focused.length_add_size_le)
    obtain ⟨t', hrepair, h'⟩ := hlack.repairBlack (Nat.succ_pos _) fun _ => hlength
    rw [hremoval.toList_eq] at h'
    exact ⟨t', nz, by rw [if_pos rfl, hremoval.gap_eq, hremoval.gapParent_eq, hrepair], hentry, h'⟩

end Dataflow.RedBlack.Tree

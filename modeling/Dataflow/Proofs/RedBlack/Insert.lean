import Dataflow.Proofs.RedBlack.Arena
import Dataflow.RedBlack.Insert

/-!
# Insertion keeps the balance

A red leaf is put in a vacant place. The red pair that it may make moves up by two nodes at a time,
until a rotation removes it or it is gone at the root. The order of the entries does not change on
the way.

* `Tree.Focused.straighten`: the rotations.
* `Tree.liftPair`, `Tree.RedAt.liftPair`: a turn of the way up.
* `Tree.RedAt.repairRed`: the way up.
* `Tree.Focused.attach`: the new leaf.
-/

namespace Dataflow.RedBlack

/-- The side on which a link hangs below a node. It is the left one if both children are the
link. -/
def Node.sideOf {K V : Type} (n : Node K V) (l : Link) : Side :=
  if n.left = l then .left else .right

namespace Tree

variable {K V : Type} {t : Tree K V} {path : Path K V} {s : Shape K V}
  {spare : Multiset (Cell K V)} {n : Nat}

/-- The arena holds a balanced shape with certain entries. -/
def HoldsBalanced (t : Tree K V) (spare : Multiset (Cell K V)) (entries : List (K × V)) : Prop :=
  ∃ s n, t.Focused [] s spare ∧ s.Balanced n ∧ s.color = .black ∧ s.toList = entries

theorem Focused.blackenRoot (h : t.Focused path s spare) : ∃ t', t.blackenRoot = some t' ∧
    t'.Focused [] ((path.fill s).paint .black) spare := by
  have hfill := focused_fill.mp h
  obtain ⟨t', hpaint, h'⟩ := hfill.paint .black
  refine ⟨t', ?_, h'⟩
  rw [Tree.blackenRoot, hfill.root_eq]
  exact hpaint

/-- Blackening the root of a shape with a black root changes nothing. -/
theorem Focused.finish (h : t.Focused path s spare) (hs : s.Balanced n)
    (hpath : path.Accepts s.color n) : ∃ t', t.blackenRoot = some t' ∧
      t'.HoldsBalanced spare (path.fill s).toList := by
  obtain ⟨m, hm, hblack⟩ := hpath.fill hs
  obtain ⟨t', hblacken, h'⟩ := h.blackenRoot
  rw [Shape.paint_black hblack] at h'
  exact ⟨t', hblacken, path.fill s, m, h', hm, hblack, rfl⟩

/-! ## The red pair -/

section Straighten

variable {side : Side} {z p g : Nat} {ep eg : K × V} {brother uncle : Shape K V}

/-- The end of a straightening, where the pair `z` and `p` is on the outer side of `g`. -/
theorem Focused.straighten_outer
    (h : t.Focused (⟨side, .red, p, ep, brother⟩ :: ⟨side, .black, g, eg, uncle⟩ :: path) s spare)
    (hz : s.root = some z) (hs : s.Balanced n) (hbrother : brother.Balanced n)
    (huncle : uncle.Balanced n) (hbrother' : brother.color = .black)
    (huncle' : uncle.color = .black) :
    ∃ t' s', (do
        let p ← (← t.node? z).parent
        let g ← (← t.node? p).parent
        let t ← t.update p (Node.setColor .black)
        let t ← t.update g (Node.setColor .red)
        t.rotate side.other g) = some t' ∧
      t'.Focused path s' spare ∧ s'.Balanced (n + 1) ∧ s'.color = .black ∧
      s'.toList = (Shape.join side .black g eg (.join side .red p ep s brother) uncle).toList := by
  obtain ⟨nz, hnode, hparent, -⟩ := h.top hz
  have hp := focused_cons.mp h
  obtain ⟨t₁, h₁, hp₁⟩ := hp.recolor .black
  obtain ⟨t₂, h₂, hg₂⟩ := (focused_cons.mp hp₁).recolor .red
  rw [← Shape.join_other, ← Shape.join_other side .black] at hg₂
  obtain ⟨t₃, h₃, hp₃⟩ := hg₂.rotate
  refine ⟨t₃, _, ?_, hp₃, ?_, by simp, ?_⟩
  · simp only [hnode, hparent, hp.node?, Path.link, Node.parent_facing, Option.bind_eq_bind,
      Option.bind_some, h₁, h₂, h₃]
  · exact Shape.balanced_join_black.mpr
      ⟨Shape.balanced_join_red.mpr ⟨huncle', hbrother', huncle, hbrother⟩, hs⟩
  · rw [Shape.toList_rotate side.other .black .red, Shape.join_other, Shape.join_other]

/-- A red pair below a black node with a black child on its other side is removed. -/
theorem Focused.straighten {d : Crumb K V} (hd : d.color = .red)
    (h : t.Focused (d :: ⟨side, .black, g, eg, uncle⟩ :: path) s spare)
    (hz : s.root = some z) (hred : s.color = .red) (hs : s.Balanced n)
    (hsibling : d.sibling.Balanced n) (huncle : uncle.Balanced n)
    (hsibling' : d.sibling.color = .black) (huncle' : uncle.color = .black) :
    ∃ t' s', t.straighten side z d.slot = some t' ∧
      t'.Focused path s' spare ∧ s'.Balanced (n + 1) ∧ s'.color = .black ∧
      s'.toList = (Shape.join side .black g eg (d.plug s) uncle).toList := by
  obtain ⟨dside, dcolor, p, ep, sibling⟩ := d
  cases hd
  have hnode := h.crumb
  unfold Tree.straighten
  rw [hnode]
  simp only [Option.bind_eq_bind, Option.bind_some]
  by_cases hside : dside = side
  · -- The pair is straight: the child on the inner side is the brother.
    subst hside
    have hne := h.sibling_ne (Or.inl (by simp [hz]))
    rw [hz] at hne
    rw [Node.child_other_facing, if_neg hne]
    exact h.straighten_outer hz hs hsibling huncle hsibling' huncle'
  · -- The pair is bent: a rotation makes the upper node of the pair the lower one.
    obtain rfl : dside = side.other := by
      cases dside <;> cases side <;> simp_all [Side.other]
    obtain ⟨ez, outer, inner, hjoin⟩ := Shape.exists_join hz side.other
    rw [hred, Shape.join_other] at hjoin
    rw [Node.child_facing, hz, if_pos rfl]
    have hp := focused_cons.mp h
    rw [Crumb.plug, Shape.join_other, hjoin] at hp
    obtain ⟨t₁, h₁, hz₁⟩ := hp.rotate
    rw [hjoin, Shape.balanced_join_red] at hs
    obtain ⟨hinner', houter', hinner, houter⟩ := hs
    obtain ⟨t', s', h', hs', hbalanced, hblack, hlist⟩ :=
      (focused_cons (d := ⟨side, .red, z, ez, outer⟩)).mpr hz₁ |>.straighten_outer
        (Shape.root_join _ _ _ _ _ _)
        (Shape.balanced_join_red.mpr ⟨hsibling', hinner', hsibling, hinner⟩) houter huncle
        houter' huncle'
    refine ⟨t', s', ?_, hs', hbalanced, hblack, ?_⟩
    · simp only [h₁, Option.map_some, Option.bind_some]
      exact h'
    · rw [hlist, Crumb.plug, Shape.join_other, hjoin]
      exact Path.toList_fill_congr [⟨side, .black, g, eg, uncle⟩]
        (Shape.toList_rotate side .red .red .red .red p z ep ez sibling inner outer)

end Straighten

/-- A red pair whose uncle is red moves up by recoloring. -/
theorem Focused.recolor_uncle {side : Side} {g : Nat} {eg : K × V} {uncle : Shape K V}
    {d : Crumb K V} (h : t.Focused (d :: ⟨side, .black, g, eg, uncle⟩ :: path) s spare) :
    ∃ t₁ t₂ t₃, t.update d.slot (Node.setColor .black) = some t₁ ∧
      t₁.updateLink uncle.root (Node.setColor .black) = some t₂ ∧
      t₂.update g (Node.setColor .red) = some t₃ ∧
      t₃.Focused path (.join side .red g eg (.join d.side .black d.slot d.entry s d.sibling)
        (uncle.paint .black)) spare := by
  obtain ⟨t₁, h₁, hz₁⟩ := h.recolor_crumb .black
  obtain ⟨t₂, h₂, hp₂⟩ := (focused_cons.mp hz₁).paint_sibling .black
  obtain ⟨t₃, h₃, hp₃⟩ := hp₂.recolor_crumb .red
  exact ⟨t₁, t₂, t₃, h₁, h₂, h₃, focused_cons.mp hp₃⟩

/-! ## The way up -/

/-- A turn of the way up from a red node. The pair of `z` and its red parent `p` goes up, and the
red node that is next is given too, or the pair is removed. -/
def liftPair (t : Tree K V) (z p : Nat) : Option (Tree K V × Option Nat) := do
  let np ← t.node? p
  let g ← np.parent
  let ng ← t.node? g
  let uncle := ng.child (ng.sideOf (some p)).other
  if (← t.color uncle) = .red then
    let t ← t.update p (Node.setColor .black)
    let t ← t.updateLink uncle (Node.setColor .black)
    let t ← t.update g (Node.setColor .red)
    return (t, some g)
  else
    let t ← t.straighten (ng.sideOf (some p)) z p
    return (t, none)

/-- The way up takes turns for as long as the parent is red. -/
theorem repairRed_succ {z p : Nat} {nz np : Node K V} (hz : t.node? z = some nz)
    (hparent : nz.parent = some p) (hp : t.node? p = some np) (fuel : Nat) :
    t.repairRed (fuel + 1) z =
      if np.color = .black then t.blackenRoot
      else t.liftPair z p >>= fun
        | (t, some g) => t.repairRed fuel g
        | (t, none) => t.blackenRoot := by
  rw [Tree.repairRed, Tree.liftPair]
  simp only [hz, hparent, hp, Option.bind_eq_bind, Option.bind_some]
  split
  · rfl
  · simp only [Option.bind_assoc]
    refine Option.bind_congr fun g _ => Option.bind_congr fun ng _ =>
      Option.bind_congr fun c _ => ?_
    split
    · simp only [Option.bind_assoc, Option.pure_def, Option.bind_some]
      rfl
    · simp only [Option.bind_assoc, Option.pure_def, Option.bind_some]
      rfl

/-- A red node in a place of a tree that is balanced but for the red pair that the node may make
with its parent. -/
structure RedAt (t : Tree K V) (path : Path K V) (s : Shape K V) (spare : Multiset (Cell K V))
    (n z : Nat) : Prop where
  focused : t.Focused path s spare
  root_eq : s.root = some z
  red : s.color = .red
  balanced : s.Balanced n
  accepts : path.Accepts .black n

section Turn

variable {z : Nat} {d : Crumb K V}

/-- What a turn does once the place of the pair is known. -/
theorem Focused.liftPair_eq {g : Crumb K V} (h : t.Focused (d :: g :: path) s spare) (z : Nat) :
    t.liftPair z d.slot =
      if g.sibling.color = .red then do
        let t ← t.update d.slot (Node.setColor .black)
        let t ← t.updateLink g.sibling.root (Node.setColor .black)
        let t ← t.update g.slot (Node.setColor .red)
        return (t, some g.slot)
      else do
        let t ← t.straighten g.side z d.slot
        return (t, none) := by
  have hp := focused_cons.mp h
  have hg := hp.crumb
  have hside := hp.side_eq (Or.inl (by simp))
  rw [d.root_plug] at hg hside
  rw [Tree.liftPair]
  simp only [Node.sideOf, h.crumb, hg, hside, hp.color_sibling, Path.link_cons,
    Option.bind_eq_bind, Option.bind_some, Node.parent_facing, Node.child_other_facing]

/-- A red pair below a red uncle goes up by two nodes. Below a black uncle a rotation removes it. -/
theorem RedAt.liftPair (h : t.RedAt (d :: path) s spare n z) (hd : d.color = .red) :
    ∃ g up, path = g :: up ∧
      ((∃ t' t'', t.liftPair z d.slot = some (t', none) ∧ t'.blackenRoot = some t'' ∧
          t''.HoldsBalanced spare (Path.fill (d :: path) s).toList) ∨
        ∃ t' s', t.liftPair z d.slot = some (t', some g.slot) ∧
          t'.RedAt up s' spare (n + 1) g.slot ∧
          (Path.fill up s').toList = (Path.fill (d :: path) s).toList) := by
  obtain ⟨hfocused, hz, hred, hs, hsibling, hpath⟩ := h
  rw [hd] at hpath
  obtain ⟨-, hsibling', hpath⟩ := hpath
  -- A red node accepts no red root, so there is a grandparent, and it is black.
  cases path with
  | nil => cases hpath
  | cons g path =>
    obtain ⟨side, gcolor, g, eg, uncle⟩ := g
    obtain ⟨huncle, hpath⟩ := hpath
    cases gcolor with
    | red => cases hpath.1
    | black =>
      refine ⟨_, path, rfl, ?_⟩
      rw [hfocused.liftPair_eq]
      cases hcolor : uncle.color with
      | red =>
        obtain ⟨t₁, t₂, t₃, h₁, h₂, h₃, hg⟩ := hfocused.recolor_uncle
        refine .inr ⟨t₃, _, ?_, ⟨hg, by simp, by simp, ?_, hpath⟩, ?_⟩
        · simp only [h₁, h₂, h₃, Option.bind_eq_bind, Option.bind_some, if_true]
          rfl
        · exact Shape.balanced_join_red.mpr ⟨Shape.color_join _ _ _ _ _ _,
            Shape.color_paint_black _, Shape.balanced_join_black.mpr ⟨hs, hsibling⟩,
            huncle.paint_black hcolor⟩
        · exact Path.toList_fill_congr path (Shape.toList_join_congr _ _ _ _ _
            (Shape.toList_join_congr _ _ _ _ _ rfl rfl) (Shape.toList_paint _ _))
      | black =>
        obtain ⟨t₁, s₁, h₁, hs₁, hbalanced, hblack, hlist⟩ :=
          hfocused.straighten hd hz hred hs hsibling huncle hsibling' hcolor
        obtain ⟨t', hblacken, h'⟩ := hs₁.finish hbalanced (hblack.symm ▸ hpath)
        rw [Path.toList_fill_congr path hlist] at h'
        refine .inl ⟨t₁, t', ?_, hblacken, h'⟩
        rw [if_neg (by simp), h₁]
        rfl

end Turn

/-- The way up from a red node. -/
theorem RedAt.repairRed {fuel z : Nat} (h : t.RedAt path s spare n z)
    (hfuel : path.length < fuel) :
    ∃ t', t.repairRed fuel z = some t' ∧ t'.HoldsBalanced spare (path.fill s).toList := by
  induction fuel generalizing t path s n z with
  | zero => exact absurd hfuel (Nat.not_lt_zero _)
  | succ fuel ih =>
    obtain ⟨nz, hnode, hparent, -⟩ := h.focused.top h.root_eq
    cases path with
    | nil =>
      obtain ⟨t', hblacken, h'⟩ := h.focused.blackenRoot
      refine ⟨t', ?_, _, n + 1, h', h.balanced.paint_black h.red, by simp, Shape.toList_paint _ _⟩
      simp only [Tree.repairRed, hnode, hparent, Path.link_nil, Option.bind_eq_bind,
        Option.bind_some, hblacken]
    | cons d path =>
      rw [Path.link_cons] at hparent
      rw [repairRed_succ hnode hparent h.focused.crumb, Node.color_facing]
      cases hcolor : d.color with
      | black =>
        obtain ⟨hsibling, hpath⟩ := h.accepts
        rw [hcolor] at hpath
        rw [if_pos rfl]
        exact h.focused.finish h.balanced ⟨hsibling, by rw [hcolor]; exact hpath⟩
      | red =>
        rw [if_neg (by simp)]
        obtain ⟨g, up, rfl, ⟨t₁, t', h₁, hblacken, h'⟩ | ⟨t₁, s₁, h₁, hup, hlist⟩⟩ :=
          h.liftPair hcolor
        · exact ⟨t', by rw [h₁]; exact hblacken, h'⟩
        · simp only [List.length_cons] at hfuel
          obtain ⟨t', hrepair, h'⟩ := ih hup (by omega)
          exact ⟨t', by rw [h₁]; exact hrepair, hlist ▸ h'⟩

/-! ## The new leaf -/

/-- A red leaf in a vacant place. -/
theorem Focused.attach (h : t.Focused path .leaf spare) (k : K) (v : V) :
    ∃ t', t.attach k v path.spot = some t' ∧
      t'.Focused path (.node .red .leaf t.size (k, v) .leaf) spare := by
  cases path with
  | nil =>
    refine ⟨_, rfl, rfl, ?_⟩
    change ({ t with nodes := _ } : Tree K V).cells = _
    rw [cells_push, h.cells_eq]
    simp [Shape.cells, Path.cells, Path.spot]
  | cons d path =>
    have hcells := t.cells_push ⟨k, v, some d.slot, none, none, .red⟩
    rw [h.cells_eq, Path.cells, Shape.cells, zero_add, add_assoc, add_left_comm] at hcells
    obtain ⟨t', hupdate, hroot, hcells'⟩ :=
      update_cells hcells (Node.setChild d.side (some t.size))
    refine ⟨t', hupdate, hroot.trans h.root_eq, ?_⟩
    rw [hcells', Node.setChild_facing]
    simp only [Shape.cells, Shape.root, Path.cells, Path.link_cons, add_zero]
    abel

/-- A new leaf makes a red pair at most. -/
theorem Focused.attach_redAt (h : t.Focused path .leaf spare) {m : Nat}
    (hm : (path.fill .leaf).Balanced m) (hblack : (path.fill .leaf).color = .black) (k : K)
    (v : V) : ∃ t', t.attach k v path.spot = some t' ∧
      t'.RedAt path (.node .red .leaf t.size (k, v) .leaf) spare 1 t.size := by
  obtain ⟨n, hleaf, hpath⟩ := Path.accepts_of_fill hm hblack
  cases hleaf
  obtain ⟨t', hattach, h'⟩ := h.attach k v
  exact ⟨t', hattach, h', rfl, rfl, .red rfl rfl .leaf .leaf, hpath⟩

/-- Insertion where the key is missing. -/
theorem Focused.insert_vacant (h : t.Focused path .leaf spare) {m : Nat}
    (hm : (path.fill .leaf).Balanced m) (hblack : (path.fill .leaf).color = .black) (k : K)
    (v : V) :
    ∃ t', (t.attach k v path.spot >>= fun t' => t'.repairRed t'.size t.size) = some t' ∧
      t'.HoldsBalanced spare (path.before ++ (k, v) :: path.after) := by
  obtain ⟨t₁, hattach, hred⟩ := h.attach_redAt hm hblack k v
  have hfuel : path.length < t₁.size := by
    have hle := hred.focused.length_add_size_le
    rw [Shape.size] at hle
    omega
  obtain ⟨t', hrepair, h'⟩ := hred.repairRed hfuel
  rw [Path.toList_fill] at h'
  exact ⟨t', by rw [hattach]; exact hrepair, h'⟩

end Tree

end Dataflow.RedBlack

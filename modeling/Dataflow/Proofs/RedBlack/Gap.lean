import Dataflow.Proofs.RedBlack.Insert
import Dataflow.RedBlack.Erase

/-!
# Filling the gap of a removed black node

When a black node goes away, the ways down through its place lack a black node. The lack moves up
the tree, until it meets a red node that can become black, or a sibling from which a black node can
be borrowed, or the root.

* `Shape.Lacks`: a shape one black node short.
* `Tree.Focused.borrowBlack`: the rotations.
* `Tree.turnGap`, `Tree.GapAt.turn`: a turn of the way up.
* `Tree.GapAt.repairBlack`: the way up.
-/

namespace Dataflow.RedBlack

variable {K V : Type}

/-- The shape has a black node on every way down too few, if `n + 1` are called for. A red top can
make up for it. -/
def Shape.Lacks (n : Nat) (s : Shape K V) : Prop :=
  s.color = .black ∧ s.Balanced n ∨ s.color = .red ∧ (s.paint .black).Balanced (n + 1)

theorem Shape.Balanced.lacks {n : Nat} {s : Shape K V} (h : s.Balanced n) : s.Lacks n := by
  cases hcolor : s.color with
  | black => exact Or.inl ⟨hcolor, h⟩
  | red => exact Or.inr ⟨hcolor, h.paint_black hcolor⟩

namespace Tree

variable {t : Tree K V} {path : Path K V} {x : Shape K V} {spare : Multiset (Cell K V)} {n : Nat}

/-! ## Borrowing from the sibling -/

section Borrow

variable {side : Side} {c cw : Color} {p w : Nat} {ep ew : K × V} {near far : Shape K V}

/-- The end of a borrowing, where the red child of the sibling is the outer one. -/
theorem Focused.borrow_outer
    (h : t.Focused (⟨side, c, p, ep, .join side cw w ew near far⟩ :: path) x spare) :
    ∃ t', (do
        let np ← t.node? p
        let t ← t.update w (Node.setColor np.color)
        let t ← t.update p (Node.setColor .black)
        let t ← t.updateLink ((← t.node? w).child side.other) (Node.setColor .black)
        t.rotate side p) = some t' ∧
      t'.Focused path
        (.join side c w ew (.join side .black p ep x near) (far.paint .black)) spare := by
  have hp := h.crumb
  obtain ⟨t₁, h₁, hw₁⟩ := (focused_sibling.mp h).recolor c
  obtain ⟨t₂, h₂, hw₂⟩ := hw₁.recolor_crumb .black
  obtain ⟨t₃, h₃, hn₃⟩ := (focused_join.mp hw₂).paint_sibling .black
  have hp₃ := focused_join.mpr (focused_sibling.mpr (focused_join.mpr hn₃))
  obtain ⟨t₄, h₄, hw₄⟩ := hp₃.rotate
  refine ⟨t₄, ?_, hw₄⟩
  simp only [hp, h₁, h₂, h₃, h₄, hw₂.node?, Option.bind_eq_bind, Option.bind_some,
    Node.color_facing, Node.child_other_facing]

/-- A red inner child of the sibling becomes the sibling, and the sibling its red outer child. -/
theorem Focused.borrow_inner {b : Nat} {eb : K × V} {inner outer : Shape K V}
    (h : t.Focused (⟨side, c, p, ep, .join side .black w ew (.join side .red b eb inner outer) far⟩
      :: path) x spare) :
    ∃ t₁ t₂ t₃, t.updateLink (some b) (Node.setColor .black) = some t₁ ∧
      t₁.update w (Node.setColor .red) = some t₂ ∧ t₂.rotate side.other w = some t₃ ∧
      t₃.Focused (⟨side, c, p, ep, .join side .black b eb inner (.join side .red w ew outer far)⟩
        :: path) x spare := by
  have hb := focused_join.mp (focused_sibling.mp h)
  obtain ⟨t₁, h₁, hb₁⟩ := hb.paint .black
  obtain ⟨t₂, h₂, hw₂⟩ := (focused_join.mpr hb₁).recolor .red
  rw [Shape.paint_join, ← Shape.join_other, ← Shape.join_other side .black] at hw₂
  obtain ⟨t₃, h₃, hb₃⟩ := hw₂.rotate
  rw [Shape.root_join] at h₁
  rw [Shape.join_other, Shape.join_other] at hb₃
  exact ⟨t₁, t₂, t₃, h₁, h₂, h₃, focused_sibling.mpr hb₃⟩

/-- What a borrowing leaves in a place: a node of the color that was there, whose subtrees are
black. -/
structure Borrowed (side : Side) (c : Color) (n : Nat) (entries : List (K × V)) (s : Shape K V) :
    Prop where
  split : ∃ i e a b, s = .join side c i e a b ∧ a.color = .black ∧ b.color = .black ∧
    a.Balanced (n + 1) ∧ b.Balanced (n + 1)
  toList_eq : s.toList = entries

theorem Focused.borrowBlack
    (h : t.Focused (⟨side, c, p, ep, .join side .black w ew near far⟩ :: path) x spare)
    (hx : x.Balanced n) (hnear : near.Balanced n) (hfar : far.Balanced n)
    (hred : far.color = .black → near.color = .red) :
    ∃ t' s', t.borrowBlack side p w = some t' ∧ t'.Focused path s' spare ∧
      Borrowed side c n (Shape.join side c p ep x (.join side .black w ew near far)).toList s' := by
  have hw := focused_sibling.mp h
  have hn := focused_join.mp hw
  unfold Tree.borrowBlack
  simp only [hw.node?, hn.color_sibling, Option.bind_eq_bind, Option.bind_some,
    Node.child_other_facing, Node.child_facing]
  cases hcolor : far.color with
  | red =>
    -- The red child is the outer one already.
    obtain ⟨t', h', hs'⟩ := h.borrow_outer
    refine ⟨t', _, h', hs', ⟨w, ew, _, _, rfl, by simp, by simp,
      Shape.balanced_join_black.mpr ⟨hx, hnear⟩, hfar.paint_black hcolor⟩, ?_⟩
    rw [← Shape.toList_rotate side c .black c .black]
    exact Shape.toList_join_congr _ _ _ _ _ (Shape.toList_join_congr _ _ _ _ _ rfl rfl)
      (Shape.toList_paint _ _)
  | black =>
    obtain ⟨b, eb, inner, outer, rfl⟩ := Shape.exists_red (hred hcolor) side
    obtain ⟨-, -, hinner, houter⟩ := Shape.balanced_join_red.mp hnear
    obtain ⟨t₁, t₂, t₃, h₁, h₂, h₃, hb₃⟩ := h.borrow_inner
    obtain ⟨t', h', hs'⟩ := hb₃.borrow_outer
    have hp₃ := hb₃.crumb
    refine ⟨t', _, ?_, hs', ⟨b, eb, _, _, rfl, by simp, by simp,
      Shape.balanced_join_black.mpr ⟨hx, hinner⟩, ?_⟩, ?_⟩
    · simp only [if_true, Shape.root_join, h₁, h₂, h₃, hp₃, Option.bind_some,
        Node.child_other_facing]
      exact h'
    · rw [Shape.paint_join]
      exact Shape.balanced_join_black.mpr ⟨houter, hfar⟩
    · rw [Shape.paint_join, Shape.toList_rotate side c .black .black c]
      exact Shape.toList_join_congr _ _ _ _ _ rfl (Shape.toList_rotate _ _ _ _ _ _ _ _ _ _ _ _).symm

end Borrow

/-! ## The way up -/

/-- The sibling `w` of a gap on a side below `p`, once a red sibling has been rotated away. -/
def blackSibling (t : Tree K V) (side : Side) (p w : Nat) : Option (Nat × Tree K V) := do
  if (← t.color (some w)) = .red then
    let t ← t.update w (Node.setColor .black)
    let t ← t.update p (Node.setColor .red)
    let t ← t.rotate side p
    let w ← (← t.node? p).child side.other
    return (w, t)
  else
    return (w, t)

/-- A gap on a side below `p` whose sibling `w` is black goes up to `p`, or it is filled. -/
def moveGap (t : Tree K V) (side : Side) (p w : Nat) :
    Option (Tree K V × Option (Link × Link)) := do
  let nw ← t.node? w
  if (← t.color nw.left) = .black ∧ (← t.color nw.right) = .black then
    let t ← t.update w (Node.setColor .red)
    return (t, some (some p, (← t.node? p).parent))
  else
    let t ← t.borrowBlack side p w
    return (t, none)

/-- A turn of the climb from a gap at the link `x` under `xp`. The link and the parent that are next
are given too, unless the gap is filled. -/
def turnGap (t : Tree K V) (x xp : Link) : Option (Tree K V × Option (Link × Link)) := do
  let p ← xp
  let np ← t.node? p
  let w ← np.child (np.sideOf x).other
  let (w, t) ← t.blackSibling (np.sideOf x) p w
  t.moveGap (np.sideOf x) p w

/-- What follows once the sibling is black. -/
theorem moveGap_bind (t : Tree K V) (fuel : Nat) (side : Side) (p w : Nat) :
    (t.moveGap side p w >>= fun
      | (t, some (x, xp)) => t.repairBlack fuel x xp
      | (t, none) => t.blackenRoot) = (do
        let nw ← t.node? w
        if (← t.color nw.left) = .black ∧ (← t.color nw.right) = .black then
          let t ← t.update w (Node.setColor .red)
          t.repairBlack fuel (some p) (← t.node? p).parent
        else
          let t ← t.borrowBlack side p w
          t.blackenRoot) := by
  rw [moveGap]
  simp only [Option.bind_eq_bind, Option.bind_assoc]
  refine Option.bind_congr fun nw _ => Option.bind_congr fun c _ => Option.bind_congr fun c' _ => ?_
  split
  · simp only [Option.bind_assoc, Option.pure_def, Option.bind_some]
  · simp only [Option.bind_assoc, Option.pure_def, Option.bind_some]

/-- The way up takes turns for as long as the link is black and not the root. -/
theorem repairBlack_succ {x : Link} (hroot : x ≠ t.root) (hcolor : t.color x = some .black)
    (xp : Link) (fuel : Nat) :
    t.repairBlack (fuel + 1) x xp = t.turnGap x xp >>= fun
      | (t, some (x, xp)) => t.repairBlack fuel x xp
      | (t, none) => t.blackenRoot := by
  rw [Tree.repairBlack, turnGap, hcolor, Option.bind_eq_bind, Option.bind_some,
    if_neg (not_or.mpr ⟨hroot, Color.noConfusion⟩)]
  -- Both sides look up the same things first.
  refine Eq.trans (Option.bind_congr fun p _ => ?_) (Option.bind_assoc xp _ _).symm
  refine Eq.trans (Option.bind_congr fun np _ => ?_) (Option.bind_assoc (t.node? p) _ _).symm
  refine Eq.trans (Option.bind_congr fun w _ => ?_) (Option.bind_assoc (np.child _) _ _).symm
  refine Eq.trans ?_ (Option.bind_assoc (t.blackSibling _ p w) _ _).symm
  refine Eq.trans ?_ (Option.bind_congr fun y _ => (moveGap_bind y.2 fuel _ p y.1).symm)
  rw [blackSibling]
  refine Eq.trans (Option.bind_congr fun c _ => ?_) (Option.bind_assoc (t.color _) _ _).symm
  by_cases hc : c = .red
  · rw [if_pos hc, if_pos hc]
    simp only [Option.bind_eq_bind, Option.bind_assoc, Option.pure_def, Option.bind_some]
    rfl
  · rw [if_neg hc, if_neg hc]
    rfl

/-- A place of a tree that is balanced but for a lack of one black node on the ways down through the
place. -/
structure GapAt (t : Tree K V) (path : Path K V) (x : Shape K V) (spare : Multiset (Cell K V))
    (n : Nat) : Prop where
  focused : t.Focused path x spare
  lacks : x.Lacks n
  accepts : path.Accepts .black (n + 1)

theorem GapAt.balanced (h : t.GapAt path x spare n) (hx : x.color = .black) : x.Balanced n := by
  rcases h.lacks with ⟨-, hxn⟩ | ⟨hred, -⟩
  · exact hxn
  · exact absurd (hx.symm.trans hred) (by simp)

section Turn

variable {d : Crumb K V}

section Move

variable {side : Side} {c : Color} {p w : Nat} {ep ew : K × V} {near far : Shape K V}

/-- What a gap does whose sibling is black. -/
theorem Focused.moveGap_eq
    (h : t.Focused (⟨side, c, p, ep, .join side .black w ew near far⟩ :: path) x spare) :
    t.moveGap side p w =
      if near.color = .black ∧ far.color = .black then do
        let t ← t.update w (Node.setColor .red)
        return (t, some (some p, (← t.node? p).parent))
      else do
        let t ← t.borrowBlack side p w
        return (t, none) := by
  have hw := focused_sibling.mp h
  have hn := focused_join.mp hw
  have hnear := hn.color
  have hfar := hn.color_sibling
  rw [Tree.moveGap, hw.node?]
  cases side with
  | left => simp only [Node.facing, hnear, hfar, Option.bind_eq_bind, Option.bind_some]
  | right => simp only [Node.facing, hnear, hfar, Option.bind_eq_bind, Option.bind_some, and_comm]

/-- If the sibling has two black children it becomes red, and its parent lacks a black node in
place of its child. -/
theorem Focused.moveGap_recolor
    (h : t.Focused (⟨side, c, p, ep, .join side .black w ew near far⟩ :: path) x spare)
    (hcolors : near.color = .black ∧ far.color = .black) (hxn : x.Balanced n)
    (hnear : near.Balanced n) (hfar : far.Balanced n)
    (hpath : path.Accepts c (if c = .black then n + 2 else n + 1)) :
    ∃ t' s n', t.moveGap side p w = some (t', some (s.root, path.link)) ∧
      t'.GapAt path s spare n' ∧ s.color = c ∧
      s.toList = (Shape.join side c p ep x (.join side .black w ew near far)).toList := by
  obtain ⟨t₁, h₁, hw₁⟩ := (focused_sibling.mp h).recolor .red
  have hp₁ := focused_sibling.mpr hw₁
  have hjoin : (Shape.join side .black p ep x (.join side .red w ew near far)).Balanced (n + 1) :=
    Shape.balanced_join_black.mpr
      ⟨hxn, Shape.balanced_join_red.mpr ⟨hcolors.1, hcolors.2, hnear, hfar⟩⟩
  obtain ⟨n', hlacks, haccepts⟩ : ∃ n',
      (Shape.join side c p ep x (.join side .red w ew near far)).Lacks n' ∧
        path.Accepts .black (n' + 1) := by
    cases c with
    | red => exact ⟨n, .inr ⟨by simp, by rwa [Shape.paint_join]⟩, hpath.weaken⟩
    | black => exact ⟨n + 1, .inl ⟨by simp, hjoin⟩, hpath⟩
  refine ⟨t₁, .join side c p ep x (.join side .red w ew near far), n', ?_,
    ⟨focused_join.mpr hp₁, hlacks, haccepts⟩, by simp,
    Shape.toList_join_congr _ _ _ _ _ rfl (Shape.toList_join_congr _ _ _ _ _ rfl rfl)⟩
  rw [h.moveGap_eq, if_pos hcolors, h₁, Option.bind_eq_bind, Option.bind_some, hp₁.crumb,
    Option.bind_eq_bind, Option.bind_some, Node.parent_facing, Shape.root_join]
  rfl

/-- If the sibling has a red child the gap is filled. -/
theorem Focused.moveGap_borrow
    (h : t.Focused (⟨side, c, p, ep, .join side .black w ew near far⟩ :: path) x spare)
    (hcolors : ¬(near.color = .black ∧ far.color = .black)) (hxn : x.Balanced n)
    (hnear : near.Balanced n) (hfar : far.Balanced n)
    (hpath : path.Accepts c (if c = .black then n + 2 else n + 1)) :
    ∃ t' t'', t.moveGap side p w = some (t', none) ∧ t'.blackenRoot = some t'' ∧
      t''.HoldsBalanced spare
        (path.fill (.join side c p ep x (.join side .black w ew near far))).toList := by
  have hborrow : far.color = .black → near.color = .red := by
    intro hfar'
    cases hnear' : near.color with
    | red => rfl
    | black => exact absurd ⟨hnear', hfar'⟩ hcolors
  obtain ⟨t₁, s₁, h₁, hs₁, ⟨i, e, a, b, rfl, ha, hb, han, hbn⟩, hlist⟩ :=
    h.borrowBlack hxn hnear hfar hborrow
  obtain ⟨t', h', hholds⟩ : ∃ t', t₁.blackenRoot = some t' ∧
      t'.HoldsBalanced spare (path.fill (.join side c i e a b)).toList := by
    cases c with
    | red =>
      refine hs₁.finish (Shape.balanced_join_red.mpr ⟨ha, hb, han, hbn⟩) ?_
      rw [Shape.color_join]
      exact hpath
    | black =>
      refine hs₁.finish (Shape.balanced_join_black.mpr ⟨han, hbn⟩) ?_
      rw [Shape.color_join]
      exact hpath
  rw [Path.toList_fill_congr path hlist] at hholds
  refine ⟨t₁, t', ?_, h', hholds⟩
  rw [h.moveGap_eq, if_neg hcolors, h₁]
  rfl

end Move

/-- The sibling of a gap exists, since the lack is real. So the side of the gap is known, also if it
is a missing child. -/
theorem GapAt.exists_sibling (h : t.GapAt (d :: path) x spare n) (hx : x.color = .black) :
    ∃ w, d.sibling.root = some w ∧
      (Node.facing d.side d.entry path.link x.root (some w) d.color).sideOf x.root = d.side := by
  obtain ⟨w, hw⟩ := h.accepts.1.exists_root (h.balanced hx).pos
  have hside := h.focused.side_eq (Or.inr (by simp [hw]))
  rw [hw] at hside
  exact ⟨w, hw, hside⟩

/-- A red sibling goes above its parent, and its inner child, which is black, becomes the
sibling. -/
theorem Focused.rotate_sibling {side : Side} {p w : Nat} {ep ew : K × V} {near far : Shape K V}
    (h : t.Focused (⟨side, .black, p, ep, .join side .red w ew near far⟩ :: path) x spare) :
    ∃ t₁ t₂ t₃, t.update w (Node.setColor .black) = some t₁ ∧
      t₁.update p (Node.setColor .red) = some t₂ ∧ t₂.rotate side p = some t₃ ∧
      t₃.Focused (⟨side, .red, p, ep, near⟩ :: ⟨side, .black, w, ew, far⟩ :: path) x spare := by
  obtain ⟨t₁, h₁, hw₁⟩ := (focused_sibling.mp h).recolor .black
  obtain ⟨t₂, h₂, hw₂⟩ := hw₁.recolor_crumb .red
  obtain ⟨t₃, h₃, hw₃⟩ := (focused_join.mpr (focused_sibling.mpr hw₂)).rotate
  exact ⟨t₁, t₂, t₃, h₁, h₂, h₃, focused_join.mp (focused_join.mp hw₃)⟩

/-- A red sibling is rotated away: the gap then hangs below a red node, one node deeper, and its
sibling is black. -/
theorem GapAt.blackSibling {w : Nat} (h : t.GapAt (d :: path) x spare n) (hx : x.color = .black)
    (hw : d.sibling.root = some w) :
    ∃ (t' : Tree K V) (w' : Nat) (c : Color) (ew : K × V) (near far : Shape K V) (up : Path K V),
      t.blackSibling d.side d.slot w = some (w', t') ∧
      t'.Focused (⟨d.side, c, d.slot, d.entry, .join d.side .black w' ew near far⟩ :: up) x spare ∧
      near.Balanced n ∧ far.Balanced n ∧
      up.Accepts c (if c = .black then n + 2 else n + 1) ∧ (c = .red ∨ up = path) ∧
      (up.fill (.join d.side c d.slot d.entry x (.join d.side .black w' ew near far))).toList =
        (Path.fill (d :: path) x).toList := by
  have hxn := h.balanced hx
  obtain ⟨hfocused, -, hsibling, hpath⟩ := h
  have hcolor := hfocused.color_sibling
  obtain ⟨side, c, p, ep, sibling⟩ := d
  dsimp only at *
  rw [hw] at hcolor
  rw [Tree.blackSibling, hcolor, Option.bind_eq_bind, Option.bind_some]
  cases hred : sibling.color with
  | black =>
    obtain ⟨w', ew, near, far, rfl, hnear, hfar⟩ := hsibling.exists_black_join hxn.pos hred side
    rw [Shape.root_join] at hw
    obtain rfl := Option.some.inj hw
    refine ⟨t, w', c, ew, near, far, path, if_neg (by simp), hfocused, hnear, hfar, ?_, .inr rfl,
      rfl⟩
    cases c with
    | red => exact hpath.2.2
    | black => exact hpath
  | red =>
    obtain ⟨w', ew, near, far, rfl⟩ := Shape.exists_red hred side
    rw [Shape.root_join] at hw
    obtain rfl := Option.some.inj hw
    cases c with
    | red => exact absurd (hred.symm.trans hpath.2.1) (by simp)
    | black =>
      obtain ⟨hnear', -, hnear, hfar⟩ := Shape.balanced_join_red.mp hsibling
      obtain ⟨w₁, e₁, near₁, far₁, rfl, hnear₁, hfar₁⟩ :=
        hnear.exists_black_join hxn.pos hnear' side
      obtain ⟨t₁, t₂, t₃, h₁, h₂, h₃, hx₃⟩ := hfocused.rotate_sibling
      refine ⟨t₃, w₁, .red, e₁, near₁, far₁, _, ?_, hx₃, hnear₁, hfar₁, ⟨hfar, hpath⟩, .inl rfl,
        Path.toList_fill_congr path (Shape.toList_rotate side .black .red .red .black p w' ep ew x
          (.join side .black w₁ e₁ near₁ far₁) far)⟩
      simp only [h₁, h₂, h₃, hx₃.crumb, Shape.root_join, Option.bind_eq_bind, Option.bind_some,
        Node.child_other_facing, if_true]
      rfl

/-- What a turn does once the sibling of the gap is known. -/
theorem GapAt.turnGap_eq {w : Nat} (h : t.GapAt (d :: path) x spare n) (hx : x.color = .black)
    (hw : d.sibling.root = some w) :
    t.turnGap x.root (some d.slot) =
      (t.blackSibling d.side d.slot w).bind fun r => r.2.moveGap d.side d.slot r.1 := by
  obtain ⟨w', hw', hside⟩ := h.exists_sibling hx
  obtain rfl := Option.some.inj (hw.symm.trans hw')
  have hcrumb := h.focused.crumb
  rw [hw] at hcrumb
  simp only [turnGap, hcrumb, hside, Node.child_other_facing, Option.bind_eq_bind, Option.bind_some]

/-- A gap goes up by one node, or it is filled, in this turn or before the next one. -/
theorem GapAt.turn (h : t.GapAt (d :: path) x spare n) (hx : x.color = .black) :
    (∃ t' t'', t.turnGap x.root (some d.slot) = some (t', none) ∧ t'.blackenRoot = some t'' ∧
        t''.HoldsBalanced spare (Path.fill (d :: path) x).toList) ∨
      ∃ (t' : Tree K V) (up : Path K V) (s : Shape K V) (n' : Nat),
        t.turnGap x.root (some d.slot) = some (t', some (s.root, up.link)) ∧
        t'.GapAt up s spare n' ∧ (s.color = .red ∨ up = path) ∧
        (up.fill s).toList = (Path.fill (d :: path) x).toList := by
  obtain ⟨w, hw, -⟩ := h.exists_sibling hx
  obtain ⟨t₁, w', c, ew, near, far, up, h₁, hfocused, hnear, hfar, hpath, hup, hlist⟩ :=
    h.blackSibling hx hw
  rw [h.turnGap_eq hx hw, h₁, Option.bind_some]
  by_cases hcolors : near.color = .black ∧ far.color = .black
  · obtain ⟨t', s, n', h', hgap, rfl, hs⟩ :=
      hfocused.moveGap_recolor hcolors (h.balanced hx) hnear hfar hpath
    exact .inr ⟨t', up, s, n', h', hgap, hup, (Path.toList_fill_congr up hs).trans hlist⟩
  · rw [← hlist]
    exact .inl (hfocused.moveGap_borrow hcolors (h.balanced hx) hnear hfar hpath)

end Turn

theorem Focused.repairBlack_stop {fuel : Nat} {xp : Link} (h : t.Focused path x spare)
    (hstop : x.root = t.root ∨ x.color = .red) : ∃ t',
      t.repairBlack (fuel + 1) x.root xp = some t' ∧ t'.Focused path (x.paint .black) spare := by
  obtain ⟨t', hpaint, h'⟩ := h.paint .black
  refine ⟨t', ?_, h'⟩
  rw [Tree.repairBlack, h.color, Option.bind_eq_bind, Option.bind_some, if_pos hstop, hpaint]

/-- A lack of a black node is made up for somewhere on the way up. Less fuel is called for if the
top is red. -/
theorem GapAt.repairBlack {fuel : Nat} (h : t.GapAt path x spare n) (hpos : 0 < fuel)
    (hfuel : x.color = .black → path.length < fuel) :
    ∃ t', t.repairBlack fuel x.root path.link = some t' ∧
      t'.HoldsBalanced spare (path.fill x).toList := by
  induction fuel generalizing t path x n with
  | zero => exact absurd hpos (Nat.lt_irrefl 0)
  | succ fuel ih =>
    rcases h.lacks with ⟨hblack, hxn⟩ | ⟨hred, hxn⟩
    · cases path with
      | nil =>
        obtain ⟨t', hrepair, h'⟩ := h.focused.repairBlack_stop (Or.inl h.focused.root_eq.symm)
        rw [Shape.paint_black hblack] at h'
        exact ⟨t', hrepair, x, n, h', hxn, hblack, rfl⟩
      | cons d path =>
        have hlength : path.length < fuel := Nat.lt_of_succ_lt_succ (hfuel hblack)
        rw [Path.link_cons,
          repairBlack_succ h.focused.root_ne (h.focused.color.trans (congrArg some hblack))]
        rcases h.turn hblack with
          ⟨t₁, t', h₁, hblacken, h'⟩ | ⟨t₁, up, s, n', h₁, hgap, hup, hlist⟩
        · exact ⟨t', by rw [h₁]; exact hblacken, h'⟩
        · obtain ⟨t', hrepair, h'⟩ := ih hgap (Nat.zero_lt_of_lt hlength) fun hs => by
            rcases hup with hred | rfl
            · exact absurd (hs.symm.trans hred) (by simp)
            · exact hlength
          exact ⟨t', by rw [h₁]; exact hrepair, hlist ▸ h'⟩
    · obtain ⟨t', hrepair, h'⟩ := h.focused.repairBlack_stop (Or.inr hred)
      obtain ⟨m, hm, hroot⟩ :=
        Path.Accepts.fill (s := x.paint .black) (by simpa using h.accepts) hxn
      refine ⟨t', hrepair, _, m, focused_fill.mp h', hm, hroot, ?_⟩
      exact Path.toList_fill_congr path (Shape.toList_paint _ _)

end Tree

end Dataflow.RedBlack

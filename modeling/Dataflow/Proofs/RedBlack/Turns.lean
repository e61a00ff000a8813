import Dataflow.Proofs.RedBlack.Gap

/-!
# The turns of the repairs

Insertion and removal climb up the tree. The state in which a turn of the climb begins says why the
turn finds what it looks for: a red node is never the root, and a way down that lacks a black node
has a sibling, which makes the side of the lack known even where a child is missing.

* `Tree.redTurns`, `Tree.gapTurns`: the states in which the turns begin.
* `Tree.repairRed_of_redTurns`, `Tree.repairBlack_of_gapTurns`: a climb needs fuel for its turns
  only.
* `Tree.RedAt.turns`, `Tree.GapAt.turns`: there are no more of them than nodes on the way up, and
  all of them find what they look for.
* `Tree.RedAt.climbs`, `Tree.GapAt.climbs`: so the climbs end.
-/

namespace Dataflow.RedBlack

variable {K V : Type}

namespace Tree

variable {t : Tree K V} {path : Path K V} {s x : Shape K V} {d : Crumb K V}
  {spare : Multiset (Cell K V)} {n : Nat}

/-! ## Red pairs -/

/-- The state in which a turn of the climb from a red node begins. -/
structure RedTurn (K V : Type) where
  tree : Tree K V
  slot : Nat
  parent : Nat

/-- The turns of the climb from a red node, up to a number of them. -/
def redTurns (t : Tree K V) : (fuel : Nat) → (z : Nat) → List (RedTurn K V)
  | 0, _ => []
  | fuel + 1, z =>
    match (t.node? z).bind (·.parent) with
    | none => []
    | some p =>
      if t.color (some p) = some .red then
        ⟨t, z, p⟩ ::
          match t.liftPair z p with
          | some (t', some g) => t'.redTurns fuel g
          | _ => []
      else
        []

/-- The climb from a red node needs no more fuel than it takes turns, and one for its end. -/
theorem repairRed_of_redTurns {fuel fuel' z : Nat} {t' : Tree K V}
    (h : t.repairRed fuel z = some t') (hfuel : (t.redTurns fuel z).length < fuel') :
    t.repairRed fuel' z = some t' := by
  induction fuel generalizing t z fuel' with
  | zero => cases h
  | succ fuel ih =>
    obtain ⟨fuel', rfl⟩ : ∃ m, fuel' = m + 1 := ⟨fuel' - 1, by omega⟩
    obtain ⟨nz, hz, -⟩ := Option.bind_eq_some_iff.mp h
    cases hparent : nz.parent with
    | none =>
      simp only [repairRed, hz, hparent, Option.bind_eq_bind, Option.bind_some] at h ⊢
      exact h
    | some p =>
      obtain ⟨np, hp⟩ : ∃ np, t.node? p = some np := by
        rw [repairRed, hz, Option.bind_eq_bind, Option.bind_some, hparent] at h
        obtain ⟨np, hp, -⟩ := Option.bind_eq_some_iff.mp h
        exact ⟨np, hp⟩
      rw [repairRed_succ hz hparent hp] at h ⊢
      split at h
      · rw [if_pos ‹_›]
        exact h
      · rename_i hred
        rw [if_neg hred]
        have hcolor : t.color (some p) = some .red := by
          rw [color, hp, Option.map_some]
          cases hnp : np.color with
          | red => rfl
          | black => exact absurd hnp hred
        rw [redTurns, hz, Option.bind_some, hparent] at hfuel
        dsimp only at hfuel
        rw [if_pos hcolor] at hfuel
        obtain ⟨⟨t₁, g⟩, hlift, h⟩ := Option.bind_eq_some_iff.mp h
        rw [hlift, Option.bind_eq_bind, Option.bind_some]
        cases g with
        | none => exact h
        | some g =>
          rw [hlift, List.length_cons] at hfuel
          exact ih h (Nat.lt_of_succ_lt_succ hfuel)

/-- The red parent `np` has the parent `g`, below which it hangs on the side that is tested, and the
turn takes all its steps. In particular every rotation finds the child that it turns up. -/
structure RedTurn.Grounded (turn : RedTurn K V) (np : Node K V) (g : Nat) (ng : Node K V) :
    Prop where
  parent_eq : turn.tree.node? turn.parent = some np
  red : np.color = .red
  grandparent_eq : np.parent = some g
  node_eq : turn.tree.node? g = some ng
  side_eq : ng.child (ng.sideOf (some turn.parent)) = some turn.parent
  lifted : ∃ r, turn.tree.liftPair turn.slot turn.parent = some r

theorem RedAt.grounded {z : Nat} (h : t.RedAt (d :: path) s spare n z) (hd : d.color = .red) :
    ∃ np g ng, RedTurn.Grounded ⟨t, z, d.slot⟩ np g ng := by
  obtain ⟨g, up, rfl, hlift⟩ := h.liftPair hd
  have hp := focused_cons.mp h.focused
  have hg := hp.crumb
  have hside := hp.side_eq (Or.inl (by simp))
  rw [d.root_plug] at hg hside
  refine ⟨_, g.slot, _, h.focused.crumb, ?_, Node.parent_facing _ _ _ _ _ _, hg, ?_, ?_⟩
  · rw [Node.color_facing, hd]
  · rw [Node.sideOf, hside, Node.child_facing]
  · rcases hlift with ⟨t', -, h', -⟩ | ⟨t', s', h', -⟩
    · exact ⟨_, h'⟩
    · exact ⟨_, h'⟩

/-- A climb from a red node takes no more turns than there are nodes above it. -/
theorem RedAt.turns {z : Nat} (h : t.RedAt path s spare n z) (fuel : Nat) :
    (t.redTurns fuel z).length ≤ path.length ∧
      ∀ turn ∈ t.redTurns fuel z, ∃ np g ng, turn.Grounded np g ng := by
  induction fuel generalizing t path s n z with
  | zero => exact ⟨Nat.zero_le _, List.forall_mem_nil _⟩
  | succ fuel ih =>
    obtain ⟨nz, hnode, hparent, -⟩ := h.focused.top h.root_eq
    rw [redTurns, hnode, Option.bind_some, hparent]
    cases path with
    | nil => exact ⟨Nat.zero_le _, List.forall_mem_nil _⟩
    | cons d path =>
      have hcolor : t.color (some d.slot) = some d.color := by
        have hplug := (focused_cons.mp h.focused).color
        rwa [d.root_plug, Crumb.plug, Shape.color_join] at hplug
      rw [Path.link_cons]
      dsimp only
      rw [hcolor]
      split
      · rename_i hd
        have hd := Option.some.inj hd
        have hground := h.grounded hd
        obtain ⟨g, up, rfl, ⟨t', -, h', -⟩ | ⟨t', s', h', hup, -⟩⟩ := h.liftPair hd
        · rw [h']
          exact ⟨Nat.succ_le_succ (Nat.zero_le _),
            List.forall_mem_cons.mpr ⟨hground, List.forall_mem_nil _⟩⟩
        · obtain ⟨hlength, hturns⟩ := ih hup
          rw [h']
          refine ⟨?_, List.forall_mem_cons.mpr ⟨hground, hturns⟩⟩
          simp only [List.length_cons]
          omega
      · exact ⟨Nat.zero_le _, List.forall_mem_nil _⟩

/-! ## Gaps -/

/-- The state in which a turn of the climb from a gap begins. -/
structure GapTurn (K V : Type) where
  tree : Tree K V
  gap : Link
  parent : Link

/-- The turns of the climb from a gap, up to a number of them. -/
def gapTurns (t : Tree K V) : (fuel : Nat) → (x xp : Link) → List (GapTurn K V)
  | 0, _, _ => []
  | fuel + 1, x, xp =>
    if x = t.root ∨ t.color x = some .red then
      []
    else
      ⟨t, x, xp⟩ ::
        match t.turnGap x xp with
        | some (t', some (x', xp')) => t'.gapTurns fuel x' xp'
        | _ => []

/-- The climb from a gap needs no more fuel than it takes turns, and one for its end. -/
theorem repairBlack_of_gapTurns {fuel fuel' : Nat} {x xp : Link} {t' : Tree K V}
    (h : t.repairBlack fuel x xp = some t') (hfuel : (t.gapTurns fuel x xp).length < fuel') :
    t.repairBlack fuel' x xp = some t' := by
  induction fuel generalizing t x xp fuel' with
  | zero => cases h
  | succ fuel ih =>
    obtain ⟨fuel', rfl⟩ : ∃ m, fuel' = m + 1 := ⟨fuel' - 1, by omega⟩
    obtain ⟨c, hcolor, -⟩ := Option.bind_eq_some_iff.mp h
    by_cases hstop : x = t.root ∨ c = .red
    · rw [repairBlack, hcolor, Option.bind_eq_bind, Option.bind_some, if_pos hstop] at h ⊢
      exact h
    · obtain ⟨hroot, hred⟩ := not_or.mp hstop
      obtain rfl : c = .black := by
        cases c with
        | red => exact absurd rfl hred
        | black => rfl
      rw [gapTurns, if_neg (not_or.mpr ⟨hroot, by rw [hcolor]; simp⟩)] at hfuel
      rw [repairBlack_succ hroot hcolor] at h ⊢
      obtain ⟨⟨t₁, next⟩, hturn, h⟩ := Option.bind_eq_some_iff.mp h
      rw [hturn, Option.bind_eq_bind, Option.bind_some]
      cases next with
      | none => exact h
      | some next =>
        rw [hturn, List.length_cons] at hfuel
        exact ih h (Nat.lt_of_succ_lt_succ hfuel)

/-- The gap hangs below a node `p`, on the side that is tested and not on the other one, where there
is a sibling `w`. The sibling that is black in the end exists too, and the turn takes all its steps.
In particular every rotation finds the child that it turns up. -/
structure GapTurn.Grounded (turn : GapTurn K V) (p w : Nat) (np : Node K V) : Prop where
  parent_eq : turn.parent = some p
  node_eq : turn.tree.node? p = some np
  gap_eq : np.child (np.sideOf turn.gap) = turn.gap
  sibling_eq : np.child (np.sideOf turn.gap).other = some w
  sibling_ne : some w ≠ turn.gap
  black : ∃ w' t', turn.tree.blackSibling (np.sideOf turn.gap) p w = some (w', t') ∧
    t'.color (some w') = some .black
  turned : ∃ r, turn.tree.turnGap turn.gap turn.parent = some r

theorem GapAt.grounded (h : t.GapAt (d :: path) x spare n) (hx : x.color = .black) :
    ∃ p w np, GapTurn.Grounded ⟨t, x.root, some d.slot⟩ p w np := by
  obtain ⟨w, hw, hside⟩ := h.exists_sibling hx
  obtain ⟨t', w', c, ew, near, far, up, h', hfocused, -⟩ := h.blackSibling hx hw
  have hne := h.focused.sibling_ne (Or.inr (by simp [hw]))
  have hnode := h.focused.crumb
  have hblack := hfocused.color_sibling
  rw [hw] at hne hnode
  rw [Shape.root_join, Shape.color_join] at hblack
  refine ⟨d.slot, w, _, rfl, hnode, ?_, ?_, hne, ⟨w', t', ?_, hblack⟩, ?_⟩
  · rw [hside, Node.child_facing]
  · rw [hside, Node.child_other_facing]
  · rw [hside, h']
  · rcases h.turn hx with ⟨t', -, h', -⟩ | ⟨t', up, s, n', h', -⟩
    · exact ⟨_, h'⟩
    · exact ⟨_, h'⟩

/-- A red node ends the climb. -/
theorem GapAt.gapTurns_eq_nil (h : t.GapAt path x spare n) (hx : x.color = .red) (fuel : Nat) :
    t.gapTurns fuel x.root path.link = [] := by
  cases fuel with
  | zero => rfl
  | succ fuel => exact if_pos (Or.inr (h.focused.color.trans (congrArg some hx)))

/-- A climb from a gap takes no more turns than there are nodes above it. -/
theorem GapAt.turns (h : t.GapAt path x spare n) (fuel : Nat) :
    (t.gapTurns fuel x.root path.link).length ≤ path.length ∧
      ∀ turn ∈ t.gapTurns fuel x.root path.link, ∃ p w np, turn.Grounded p w np := by
  induction fuel generalizing t path x n with
  | zero => exact ⟨Nat.zero_le _, List.forall_mem_nil _⟩
  | succ fuel ih =>
    rw [gapTurns, h.focused.color]
    split
    · exact ⟨Nat.zero_le _, List.forall_mem_nil _⟩
    · rename_i hstop
      have hx : x.color = .black := by
        cases hcolor : x.color with
        | black => rfl
        | red => exact absurd (Or.inr (congrArg some hcolor)) hstop
      cases path with
      | nil => exact absurd (Or.inl h.focused.root_eq.symm) hstop
      | cons d path =>
        have hground := h.grounded hx
        rcases h.turn hx with ⟨t', -, h', -⟩ | ⟨t', up, s, n', h', hgap, hup, -⟩
        · rw [Path.link_cons, h']
          exact ⟨Nat.succ_le_succ (Nat.zero_le _),
            List.forall_mem_cons.mpr ⟨hground, List.forall_mem_nil _⟩⟩
        · rw [Path.link_cons, h']
          obtain ⟨hlength, hturns⟩ : (t'.gapTurns fuel s.root up.link).length ≤ path.length ∧
              ∀ turn ∈ t'.gapTurns fuel s.root up.link, ∃ p w np, turn.Grounded p w np := by
            rcases hup with hred | rfl
            · rw [hgap.gapTurns_eq_nil hred]
              exact ⟨Nat.zero_le _, List.forall_mem_nil _⟩
            · exact ih hgap
          exact ⟨Nat.succ_le_succ hlength, List.forall_mem_cons.mpr ⟨hground, hturns⟩⟩

/-! ## Whole climbs -/

/-- The climb from a red node ends, after no more than `count` turns, and all of them are
grounded. -/
structure ClimbsRed (t : Tree K V) (z count : Nat) : Prop where
  ends : ∃ t', ∀ fuel, count < fuel → t.repairRed fuel z = some t'
  length_le : ∀ fuel, (t.redTurns fuel z).length ≤ count
  grounded : ∀ fuel, ∀ turn ∈ t.redTurns fuel z, ∃ np g ng, turn.Grounded np g ng

/-- The climb from a gap ends, after no more than `count` turns, and all of them are grounded. -/
structure ClimbsGap (t : Tree K V) (x xp : Link) (count : Nat) : Prop where
  ends : ∃ t', ∀ fuel, count < fuel → t.repairBlack fuel x xp = some t'
  length_le : ∀ fuel, (t.gapTurns fuel x xp).length ≤ count
  grounded : ∀ fuel, ∀ turn ∈ t.gapTurns fuel x xp, ∃ p w np, turn.Grounded p w np

theorem RedAt.climbs {z count : Nat} (h : t.RedAt path s spare n z)
    (hcount : path.length ≤ count) : t.ClimbsRed z count where
  ends := by
    obtain ⟨t', hrepair, -⟩ := h.repairRed (Nat.lt_succ_self _)
    exact ⟨t', fun fuel hfuel => repairRed_of_redTurns hrepair
      (Nat.lt_of_le_of_lt (Nat.le_trans (h.turns _).1 hcount) hfuel)⟩
  length_le fuel := Nat.le_trans (h.turns fuel).1 hcount
  grounded fuel := (h.turns fuel).2

theorem GapAt.climbs {count : Nat} (h : t.GapAt path x spare n) (hcount : path.length ≤ count) :
    t.ClimbsGap x.root path.link count where
  ends := by
    obtain ⟨t', hrepair, -⟩ := h.repairBlack (Nat.succ_pos path.length) fun _ => Nat.lt_succ_self _
    exact ⟨t', fun fuel hfuel => repairBlack_of_gapTurns hrepair
      (Nat.lt_of_le_of_lt (Nat.le_trans (h.turns _).1 hcount) hfuel)⟩
  length_le fuel := Nat.le_trans (h.turns fuel).1 hcount
  grounded fuel := (h.turns fuel).2

end Tree

end Dataflow.RedBlack

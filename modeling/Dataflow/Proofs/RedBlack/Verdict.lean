import Dataflow.Proofs.RedBlack.Check

/-!
# What the check of an arena decides

The check of an arena ends, whatever the links are: it goes down only where links lead back, so no
way down meets a slot twice, and a walk through an arena without other nodes ends too.

The check counts how often it comes to nodes and not which nodes it comes to. A node that is both
children of another one is counted twice, and a walk takes it for the right child and leaves out the
node above. Where no node is both children of another one, only sound arenas pass.

* `Tree.Ancestors`: the way up from a slot.
* `Tree.EndsBelow`, `Tree.EndsAt`: the recursion of the check ends, and a walk.
* `Tree.exists_linked`: the shape that a recursion finds.
* `Tree.Apart`: no node is both children of another one; `Linked.slots_nodup` says that then no node
  is reached twice.
* `Tree.check_exact`: the check ends, sound arenas pass, and no others do where children are apart.
-/

namespace Dataflow.RedBlack

variable {K V : Type}

theorem Color.eq_black {c : Color} (h : c ≠ .red) : c = .black := by
  cases c with
  | red => exact absurd rfl h
  | black => rfl

/-- A way up and what is below it are a part of the whole. -/
theorem Path.length_add_size_le (path : Path K V) (s : Shape K V) :
    path.length + s.size ≤ (path.fill s).size := by
  induction path generalizing s with
  | nil => exact Nat.le_of_eq (Nat.zero_add _)
  | cons d path ih =>
    have hplug := ih (d.plug s)
    rw [Crumb.plug, Shape.size_join] at hplug
    rw [fill, Crumb.plug, List.length_cons]
    omega

namespace Tree

variable {t : Tree K V} {path : Path K V} {s : Shape K V} {parent : Link} {i n : Nat}
  {up : List Nat}

/-! ## Steps of the check -/

theorem bind_eq_ok {ε α β : Type} {x : Except ε α} {f : α → Except ε β} {b : β} :
    x >>= f = .ok b ↔ ∃ a, x = .ok a ∧ f a = .ok b := by
  cases x with
  | error e => exact ⟨fun h => (nomatch h), fun ⟨_, h, _⟩ => (nomatch h)⟩
  | ok a => exact ⟨fun h => ⟨a, rfl, h⟩, fun ⟨_, ha, h⟩ => by cases ha; exact h⟩

theorem checkChild_some {nd : Node K V} {c : Nat} (h : t.checkChild i nd (some c) = .ok ()) :
    ∃ nc, t.node? c = some nc ∧ nc.parent = some i ∧ (nd.color = .red → nc.color = .black) := by
  rw [checkChild] at h
  split at h
  · cases h
  · rename_i nc hnode
    split at h
    · cases h
    · rename_i hparent
      split at h
      · cases h
      · rename_i hpair
        refine ⟨nc, hnode, not_not.mp hparent, ?_⟩
        intro hnd
        exact Color.eq_black fun hnc => hpair ⟨hnd, hnc⟩

theorem parent_of_checkChild {nd : Node K V} {l : Link} (h : t.checkChild i nd l = .ok ()) :
    ∀ c nc, l = some c → t.node? c = some nc → nc.parent = some i := by
  rintro c nc rfl hnode
  obtain ⟨nc', hnode', hparent, -⟩ := checkChild_some h
  obtain rfl := Option.some.inj (hnode.symm.trans hnode')
  exact hparent

theorem checkRoot_some (h : t.checkRoot = .ok ()) (hroot : t.root = some i) :
    ∃ nd, t.node? i = some nd ∧ nd.color = .black ∧ nd.parent = none := by
  rw [checkRoot, hroot] at h
  dsimp only at h
  split at h
  · cases h
  · rename_i nd hnode
    split at h
    · cases h
    · rename_i hred
      split at h
      · cases h
      · rename_i hparent
        exact ⟨nd, hnode, Color.eq_black hred, not_not.mp hparent⟩

/-- What the check has found below a node if it has found nothing wrong. -/
theorem checkBelow_some {fuel count : Nat}
    (h : t.checkBelow (fuel + 1) (some i) = .ok (n, count)) :
    ∃ nd m left right, t.node? i = some nd ∧ t.checkChild i nd nd.left = .ok () ∧
      t.checkChild i nd nd.right = .ok () ∧ t.checkBelow fuel nd.left = .ok (m, left) ∧
      t.checkBelow fuel nd.right = .ok (m, right) ∧
      n = m + (if nd.color = .black then 1 else 0) ∧ count = left + right + 1 := by
  rw [checkBelow] at h
  split at h
  · cases h
  · rename_i nd hnode
    simp only [bind_eq_ok] at h
    obtain ⟨_, hl, _, hr, ⟨m, left⟩, hleft, ⟨m', right⟩, hright, h⟩ := h
    dsimp only at h
    split at h
    · cases h
    · rename_i hheights
      obtain rfl : m = m' := not_not.mp hheights
      cases h
      exact ⟨nd, m, left, right, hnode, hl, hr, hleft, hright, rfl, by omega⟩

theorem check_eq_ok [Ord K] : t.check = .ok n ↔ t.checkRoot = .ok () ∧
    t.checkBelow t.size t.root = .ok (n, t.size) ∧ checkOrder 0 t.keys = .ok () := by
  rw [check]
  simp only [bind_eq_ok]
  constructor
  · rintro ⟨_, hroot, ⟨m, reachable⟩, hbelow, h⟩
    dsimp only at h
    split at h
    · cases h
    · rename_i hcount
      obtain rfl : reachable = t.size := not_not.mp hcount
      obtain ⟨_, horder, h⟩ := bind_eq_ok.mp h
      cases h
      exact ⟨hroot, hbelow, horder⟩
  · rintro ⟨hroot, hbelow, horder⟩
    refine ⟨(), hroot, (n, t.size), hbelow, ?_⟩
    dsimp only
    rw [if_neg (not_not.mpr rfl), horder]
    rfl

theorem checkOrder_chain [Ord K] {keys : List K} {position : Nat}
    (h : checkOrder position keys = .ok ()) : keys.IsChain fun a b => compare a b = .lt := by
  induction keys generalizing position with
  | nil => exact .nil
  | cons a rest ih =>
    cases rest with
    | nil => exact .singleton a
    | cons b rest =>
      rw [checkOrder] at h
      split at h
      · rename_i hlt
        exact .cons_cons hlt (ih h)
      · cases h

/-! ## Ways up -/

/-- The slots on the way up from a slot, which ends at a node without a parent. -/
inductive Ancestors (t : Tree K V) : Nat → List Nat → Prop
  | top {i : Nat} {nd : Node K V} (hnode : t.node? i = some nd) (hparent : nd.parent = none) :
      Ancestors t i []
  | step {i p : Nat} {up : List Nat} {nd : Node K V} (hnode : t.node? i = some nd)
      (hparent : nd.parent = some p) (hup : Ancestors t p up) : Ancestors t i (p :: up)

theorem Ancestors.exists_node (h : t.Ancestors i up) : ∃ nd, t.node? i = some nd := by
  cases h with
  | top hnode => exact ⟨_, hnode⟩
  | step hnode => exact ⟨_, hnode⟩

/-- There is one way up. -/
theorem Ancestors.unique {up' : List Nat} (h : t.Ancestors i up) (h' : t.Ancestors i up') :
    up = up' := by
  induction h generalizing up' with
  | top hnode hparent =>
    cases h' with
    | top => rfl
    | step hnode' hparent' =>
      obtain rfl := Option.some.inj (hnode.symm.trans hnode')
      rw [hparent] at hparent'
      cases hparent'
  | step hnode hparent _ ih =>
    cases h' with
    | top hnode' hparent' =>
      obtain rfl := Option.some.inj (hnode.symm.trans hnode')
      rw [hparent] at hparent'
      cases hparent'
    | step hnode' hparent' hup' =>
      obtain rfl := Option.some.inj (hnode.symm.trans hnode')
      obtain rfl := Option.some.inj (hparent.symm.trans hparent')
      rw [ih hup']

/-- The way up of an ancestor is the rest of the way. -/
theorem Ancestors.of_mem {j : Nat} (h : t.Ancestors i up) (hj : j ∈ up) :
    ∃ rest, t.Ancestors j rest ∧ rest.length < up.length := by
  induction h with
  | top => cases hj
  | step _ _ hup ih =>
    rcases List.mem_cons.mp hj with rfl | hj
    · exact ⟨_, hup, Nat.lt_succ_self _⟩
    · obtain ⟨rest, hrest, hlength⟩ := ih hj
      exact ⟨rest, hrest, Nat.lt_succ_of_lt hlength⟩

/-- No slot is above itself. -/
theorem Ancestors.nodup (h : t.Ancestors i up) : (i :: up).Nodup := by
  induction h with
  | top => exact List.nodup_singleton _
  | step hnode hparent hup ih =>
    refine List.nodup_cons.mpr ⟨?_, ih⟩
    intro hmem
    have h := Ancestors.step hnode hparent hup
    obtain ⟨rest, hrest, hlength⟩ := h.of_mem hmem
    rw [h.unique hrest] at hlength
    exact Nat.lt_irrefl _ hlength

theorem Ancestors.lt_size (h : t.Ancestors i up) : i < t.size := by
  obtain ⟨nd, hnode⟩ := h.exists_node
  exact (Array.getElem?_eq_some_iff.mp hnode).1

/-- A way up is shorter than the arena is large. -/
theorem Ancestors.length_lt (h : t.Ancestors i up) : up.length < t.size := by
  have hsub : i :: up ⊆ List.range t.size := by
    intro j hj
    rw [List.mem_range]
    rcases List.mem_cons.mp hj with rfl | hj
    · exact h.lt_size
    · obtain ⟨rest, hrest, -⟩ := h.of_mem hj
      exact hrest.lt_size
  have hle := (List.subperm_of_subset h.nodup hsub).length_le
  rwa [List.length_range] at hle

/-- A child that passes the check leads back. -/
theorem Ancestors.child {nd : Node K V} {c : Nat} (h : t.Ancestors i up)
    (hcheck : t.checkChild i nd (some c) = .ok ()) : t.Ancestors c (i :: up) := by
  obtain ⟨nc, hnode, hparent, -⟩ := checkChild_some hcheck
  exact .step hnode hparent h

theorem ancestors_root (h : t.checkRoot = .ok ()) (hroot : t.root = some i) :
    t.Ancestors i [] := by
  obtain ⟨nd, hnode, -, hparent⟩ := checkRoot_some h hroot
  exact .top hnode hparent

/-! ## The recursion ends -/

/-- The recursion of the check ends below a link: wherever it goes on at a node, it ends below both
children, and no way down has more than `depth` nodes. -/
def EndsBelow (t : Tree K V) : (depth : Nat) → Link → Prop
  | _, none => True
  | 0, some _ => False
  | depth + 1, some i => ∀ nd, t.node? i = some nd → t.checkChild i nd nd.left = .ok () →
    t.checkChild i nd nd.right = .ok () → t.EndsBelow depth nd.left ∧ t.EndsBelow depth nd.right

theorem Ancestors.endsBelow {depth : Nat} (h : t.Ancestors i up)
    (hdepth : t.size ≤ depth + up.length) : t.EndsBelow depth (some i) := by
  induction depth generalizing i up with
  | zero =>
    have hlt := h.length_lt
    omega
  | succ depth ih =>
    intro nd hnode hl hr
    have hchild : ∀ l, t.checkChild i nd l = .ok () → t.EndsBelow depth l := by
      intro l hl
      cases l with
      | none => cases depth <;> trivial
      | some c =>
        refine ih (h.child hl) ?_
        rw [List.length_cons]
        omega
    exact ⟨hchild _ hl, hchild _ hr⟩

/-- Where the recursion ends, a deeper one finds the same. -/
theorem EndsBelow.checkBelow_eq {depth : Nat} {l : Link} (h : t.EndsBelow depth l) {fuel : Nat}
    (hfuel : depth ≤ fuel) : t.checkBelow fuel l = t.checkBelow depth l := by
  induction depth generalizing l fuel with
  | zero =>
    cases l with
    | none => cases fuel <;> rfl
    | some i => cases h
  | succ depth ih =>
    obtain ⟨fuel, rfl⟩ : ∃ m, fuel = m + 1 := ⟨fuel - 1, by omega⟩
    cases l with
    | none => rfl
    | some i =>
      rw [checkBelow, checkBelow]
      cases hnode : t.node? i with
      | none => rfl
      | some nd =>
        dsimp only
        cases hl : t.checkChild i nd nd.left with
        | error v => rfl
        | ok =>
          cases hr : t.checkChild i nd nd.right with
          | error v => rfl
          | ok =>
            obtain ⟨hleft, hright⟩ := h nd hnode hl hr
            rw [ih hleft (Nat.le_of_succ_le_succ hfuel), ih hright (Nat.le_of_succ_le_succ hfuel)]

theorem endsBelow_root (h : t.checkRoot = .ok ()) : t.EndsBelow t.size t.root := by
  cases hroot : t.root with
  | none => cases t.size <;> trivial
  | some i => exact (ancestors_root h hroot).endsBelow (Nat.le_refl _)

/-! ## The shape that a recursion finds -/

theorem Linked.color_eq {nd : Node K V} (h : t.Linked parent s) (hs : s.root = some i)
    (hnode : t.node? i = some nd) : s.color = nd.color := by
  cases s with
  | leaf => cases hs
  | node c l j e r =>
    cases hs
    obtain rfl := Option.some.inj (hnode.symm.trans h.1)
    rfl

theorem Linked.color_of_checkChild {nd : Node K V} {l : Link} (h : t.Linked parent s)
    (hs : s.root = l) (hcheck : t.checkChild i nd l = .ok ()) (hred : nd.color = .red) :
    s.color = .black := by
  cases l with
  | none => rw [Shape.eq_leaf hs, Shape.color_leaf]
  | some c =>
    obtain ⟨nc, hnode, -, hblack⟩ := checkChild_some hcheck
    rw [h.color_eq hs hnode, hblack hred]

/-- A recursion that finds nothing wrong has gone through a balanced shape. -/
theorem exists_linked {fuel count : Nat} {l : Link} (h : t.checkBelow fuel l = .ok (n, count))
    (hparent : ∀ i nd, l = some i → t.node? i = some nd → nd.parent = parent) :
    ∃ s : Shape K V, s.root = l ∧ t.Linked parent s ∧ s.Balanced n ∧ s.size = count := by
  induction fuel generalizing l parent n count with
  | zero =>
    cases l with
    | none =>
      cases h
      exact ⟨.leaf, rfl, trivial, .leaf, rfl⟩
    | some i => cases h
  | succ fuel ih =>
    cases l with
    | none =>
      cases h
      exact ⟨.leaf, rfl, trivial, .leaf, rfl⟩
    | some i =>
      obtain ⟨nd, m, left, right, hnode, hl, hr, hleft, hright, rfl, rfl⟩ := checkBelow_some h
      obtain ⟨l, hlroot, hllinked, hlbalanced, rfl⟩ := ih hleft (parent_of_checkChild hl)
      obtain ⟨r, hrroot, hrlinked, hrbalanced, rfl⟩ := ih hright (parent_of_checkChild hr)
      have hback : nd.parent = parent := hparent i nd rfl hnode
      refine ⟨.node nd.color l i nd.entry r, rfl, ⟨?linked, hllinked, hrlinked⟩, ?balanced, rfl⟩
      case linked =>
        rw [hnode, hlroot, hrroot, ← hback]
        rfl
      case balanced =>
        cases hc : nd.color with
        | red =>
          have hlcolor := hllinked.color_of_checkChild hlroot hl hc
          have hrcolor := hrlinked.color_of_checkChild hrroot hr hc
          exact .red hlcolor hrcolor hlbalanced hrbalanced
        | black => exact .black hlbalanced hrbalanced

theorem exists_linked_root {count : Nat} (hroot : t.checkRoot = .ok ())
    (hbelow : t.checkBelow t.size t.root = .ok (n, count)) :
    ∃ s : Shape K V, t.root = s.root ∧ t.Linked none s ∧ s.color = .black ∧ s.Balanced n ∧
      s.size = count := by
  have htop : ∀ i nd, t.root = some i → t.node? i = some nd → nd.parent = none := by
    intro i nd hi hnode
    obtain ⟨nd', hnode', -, hparent⟩ := checkRoot_some hroot hi
    obtain rfl := Option.some.inj (hnode.symm.trans hnode')
    exact hparent
  obtain ⟨s, hs, hlinked, hbalanced, hsize⟩ := exists_linked hbelow htop
  refine ⟨s, hs.symm, hlinked, ?_, hbalanced, hsize⟩
  cases hi : t.root with
  | none => rw [Shape.eq_leaf (hs.trans hi), Shape.color_leaf]
  | some i =>
    obtain ⟨nd, hnode, hblack, -⟩ := checkRoot_some hroot hi
    rw [hlinked.color_eq (hs.trans hi) hnode, hblack]

/-! ## Children that are apart -/

/-- No node is both children of another one. -/
def Apart (t : Tree K V) : Prop := ∀ nd ∈ t.nodes, nd.left = none ∨ nd.left ≠ nd.right

instance (t : Tree K V) : Decidable t.Apart :=
  inferInstanceAs (Decidable (∀ nd ∈ t.nodes, nd.left = none ∨ nd.left ≠ nd.right))

theorem Linked.ancestors_root {c : Nat} (h : t.Linked (some i) s) (hi : t.Ancestors i up)
    (hs : s.root = some c) : t.Ancestors c (i :: up) := by
  cases s with
  | leaf => cases hs
  | node color l j e r =>
    cases hs
    exact .step h.1 rfl hi

/-- The way up from a slot of a subtree leads through the root of the subtree. -/
theorem Linked.ancestors {j : Nat} (h : t.Linked (some i) s) (hi : t.Ancestors i up)
    (hj : j ∈ s.slots) :
    ∃ c up', s.root = some c ∧ t.Ancestors j up' ∧ c :: i :: up <:+ j :: up' := by
  induction s generalizing i up with
  | leaf => cases hj
  | node color l c e r ihl ihr =>
    obtain ⟨hnode, hl, hr⟩ := h
    have hc : t.Ancestors c (i :: up) := .step hnode rfl hi
    rw [Shape.slots] at hj
    rcases List.mem_append.mp hj with hj | hj
    · obtain ⟨d, up', -, hup', hsuffix⟩ := ihl hl hc hj
      exact ⟨c, up', rfl, hup', (List.suffix_cons d _).trans hsuffix⟩
    · rcases List.mem_cons.mp hj with rfl | hj
      · exact ⟨j, i :: up, rfl, hc, List.suffix_rfl⟩
      · obtain ⟨d, up', -, hup', hsuffix⟩ := ihr hr hc hj
        exact ⟨c, up', rfl, hup', (List.suffix_cons d _).trans hsuffix⟩

/-- A slot is not below itself. -/
theorem Linked.not_mem_slots (h : t.Linked (some i) s) (hi : t.Ancestors i up) :
    i ∉ s.slots := by
  intro hmem
  obtain ⟨c, up', -, hup', hsuffix⟩ := h.ancestors hi hmem
  rw [hup'.unique hi] at hsuffix
  have hlength := hsuffix.length_le
  simp only [List.length_cons] at hlength
  omega

/-- If children are apart, then a shape has no slot twice: from a slot in both subtrees of a node,
the one way up would lead through both children. -/
theorem Linked.slots_nodup (hapart : t.Apart) (h : t.Linked parent s)
    (hs : ∀ i, s.root = some i → ∃ up, t.Ancestors i up) : s.slots.Nodup := by
  induction s generalizing parent with
  | leaf => exact List.nodup_nil
  | node color l i e r ihl ihr =>
    obtain ⟨hnode, hl, hr⟩ := h
    obtain ⟨up, hi⟩ := hs i rfl
    have hlnodup := ihl hl fun c hc => ⟨i :: up, hl.ancestors_root hi hc⟩
    have hrnodup := ihr hr fun c hc => ⟨i :: up, hr.ancestors_root hi hc⟩
    rw [Shape.slots, List.nodup_append]
    refine ⟨hlnodup, List.nodup_cons.mpr ⟨hr.not_mem_slots hi, hrnodup⟩, ?_⟩
    rintro j hj _ hj' rfl
    rcases List.mem_cons.mp hj' with rfl | hj'
    · exact hl.not_mem_slots hi hj
    · obtain ⟨c, up', hc, hup', hsuffix⟩ := hl.ancestors hi hj
      obtain ⟨d, up'', hd, hup'', hsuffix'⟩ := hr.ancestors hi hj'
      rw [hup''.unique hup'] at hsuffix'
      have heq : c :: i :: up = d :: i :: up :=
        (List.suffix_of_suffix_length_le hsuffix hsuffix' (Nat.le_refl _)).eq_of_length rfl
      obtain rfl : c = d := (List.cons.inj heq).1
      rcases hapart _ (Array.mem_of_getElem? hnode) with hnone | hne
      · exact absurd (hc.symm.trans hnone) (by simp)
      · exact hne (hc.trans hd.symm)

theorem Linked.slots_lt (h : t.Linked parent s) : ∀ j ∈ s.slots, j < t.size := by
  induction s generalizing parent with
  | leaf => exact fun j hj => (nomatch hj)
  | node color l i e r ihl ihr =>
    obtain ⟨hnode, hl, hr⟩ := h
    intro j hj
    rw [Shape.slots] at hj
    rcases List.mem_append.mp hj with hj | hj
    · exact ihl hl j hj
    · rcases List.mem_cons.mp hj with rfl | hj
      · exact (Array.getElem?_eq_some_iff.mp hnode).1
      · exact ihr hr j hj

/-- An arena that passes the check is sound if children are apart. -/
theorem Apart.exists_sound [Ord K] [Std.TransOrd K] (hapart : t.Apart) (h : t.check = .ok n) :
    ∃ s, t.Sound n s := by
  obtain ⟨hroot, hbelow, horder⟩ := check_eq_ok.mp h
  obtain ⟨s, hs, hlinked, hblack, hbalanced, hsize⟩ := exists_linked_root hroot hbelow
  have hnodup : s.slots.Nodup := hlinked.slots_nodup hapart fun i hi =>
    ⟨[], ancestors_root hroot (hs.trans hi)⟩
  have hdense : s.slots.Perm (List.range t.size) := by
    have hsub : s.slots ⊆ List.range t.size := by
      intro j hj
      exact List.mem_range.mpr (hlinked.slots_lt j hj)
    refine (List.subperm_of_subset hnodup hsub).perm_of_length_le ?_
    rw [List.length_range, Shape.length_slots, hsize]
  refine ⟨s, hs, hlinked, hdense, hblack, hbalanced, ?_⟩
  have : Trans (fun a b : K => compare a b = .lt) (fun a b => compare a b = .lt)
      fun a b => compare a b = .lt := ⟨Std.TransCmp.lt_trans⟩
  have hkeys := (checkOrder_chain horder).pairwise
  rw [Tree.keys, (hlinked.focused hs hdense).toList_eq] at hkeys
  exact List.pairwise_map.mp hkeys

/-! ## The walk ends -/

/-- A walk on from a link ends after at most so many steps. -/
def EndsAt (t : Tree K V) : (steps : Nat) → Link → Prop
  | _, none => True
  | 0, some _ => False
  | steps + 1, some i => ∃ next, t.successor i = some next ∧ t.EndsAt steps next

theorem linked_join {side : Side} {c : Color} {e : K × V} {near far : Shape K V} :
    t.Linked parent (.join side c i e near far) ↔
      t.node? i = some (Node.facing side e parent near.root far.root c) ∧
        t.Linked (some i) near ∧ t.Linked (some i) far := by
  cases side with
  | left => exact Iff.rfl
  | right => exact and_congr_right fun _ => And.comm

theorem Linked.place (h : t.Linked none (path.fill s)) : t.Linked path.link s := by
  induction path generalizing s with
  | nil => exact h
  | cons d path ih => exact (linked_join.mp (ih h)).2.1

theorem Linked.crumb {d : Crumb K V} (h : t.Linked none (Path.fill (d :: path) s)) :
    t.node? d.slot =
      some (Node.facing d.side d.entry path.link s.root d.sibling.root d.color) :=
  (linked_join.mp (Linked.place (s := d.plug s) h)).1

theorem Linked.descendFrom {fuel : Nat} (h : t.Linked parent s) (hs : s.root = some i)
    (hfuel : s.size ≤ fuel) : ∃ (down : Path K V) (c : Color) (j : Nat) (e : K × V) (r : Shape K V),
      t.descendFrom .left fuel i = some j ∧ s = down.fill (.node c .leaf j e r) := by
  induction fuel generalizing parent s i with
  | zero =>
    cases s with
    | leaf => cases hs
    | node c l j e r => exact absurd hfuel (Nat.not_succ_le_zero _)
  | succ fuel ih =>
    cases s with
    | leaf => cases hs
    | node c l j e r =>
      cases hs
      rw [Tree.descendFrom, h.1, Option.bind_eq_bind, Option.bind_some, Node.child]
      cases hl : l.root with
      | none =>
        obtain rfl := Shape.eq_leaf hl
        exact ⟨[], c, i, e, r, rfl, rfl⟩
      | some k =>
        rw [Shape.size] at hfuel
        obtain ⟨down, c', k', e', r', hdescend, rfl⟩ := ih h.2.1 hl (by omega)
        refine ⟨down ++ [⟨.left, c, i, e, r⟩], c', k', e', r', hdescend, ?_⟩
        rw [Path.fill_append]
        rfl

/-- The way up from a subtree ends above all entries behind it, or where it comes from the left and
from nowhere else. -/
theorem Linked.climbFrom {fuel : Nat} (h : t.Linked none (path.fill s)) (hs : s.root = some i)
    (hfuel : path.length ≤ fuel) : ∃ next entries, t.climbFrom fuel i path.link = some next ∧
      (path.fill s).Ahead next entries ∧ entries.length ≤ path.after.length := by
  induction path generalizing s i fuel with
  | nil => exact ⟨none, [], by cases fuel <;> rfl, .done, Nat.zero_le _⟩
  | cons d path ih =>
    obtain ⟨fuel, rfl⟩ : ∃ m, fuel = m + 1 := ⟨fuel - 1, by rw [List.length_cons] at hfuel; omega⟩
    have hcrumb := h.crumb
    obtain ⟨next, entries, hclimb, hahead, hlength⟩ :=
      ih h (Crumb.root_plug d s) (Nat.le_of_succ_le_succ hfuel)
    obtain ⟨side, c, j, e, sibling⟩ := d
    rw [Path.link_cons, Tree.climbFrom, hcrumb, Option.bind_eq_bind, Option.bind_some, hs]
    cases side with
    | left =>
      by_cases htwin : sibling.root = some i
      · refine ⟨next, entries, (if_pos htwin).trans hclimb, hahead, ?_⟩
        rw [Path.after, List.length_cons, List.length_append]
        omega
      · exact ⟨some j, _, if_neg htwin, .node rfl, Nat.le_refl _⟩
    | right => exact ⟨next, entries, (if_pos rfl).trans hclimb, hahead, hlength⟩

theorem Linked.successor {c : Color} {l r : Shape K V} {e : K × V}
    (h : t.Linked none (path.fill (.node c l i e r)))
    (hsize : (path.fill (.node c l i e r)).size ≤ t.size) :
    ∃ next entries, t.successor i = some next ∧
      (path.fill (.node c l i e r)).Ahead next entries ∧
        entries.length ≤ (r.toList ++ path.after).length := by
  have hle := path.length_add_size_le (.node c l i e r)
  rw [Shape.size] at hle
  unfold Tree.successor
  rw [h.place.1, Option.bind_eq_bind, Option.bind_some]
  cases hr : r.root with
  | none =>
    obtain ⟨next, entries, hclimb, hahead, hlength⟩ := h.climbFrom rfl (by omega : _ ≤ t.size)
    refine ⟨next, entries, hclimb, hahead, ?_⟩
    rw [List.length_append]
    omega
  | some k =>
    obtain ⟨down, c', j, e', far, hdescend, rfl⟩ :=
      h.place.2.2.descendFrom hr (by omega : _ ≤ t.size)
    have hahead : (path.fill (.node c l i e (down.fill (.node c' .leaf j e' far)))).Ahead (some j)
        (e' :: (far.toList ++ Path.after (down ++ ⟨.right, c, i, e, l⟩ :: path))) :=
      .node (Path.fill_append down (⟨.right, c, i, e, l⟩ :: path) _).symm
    refine ⟨some j, _, by dsimp only; rw [Tree.descend, hdescend]; rfl, hahead, ?_⟩
    rw [Path.toList_fill_node, Path.after_append, Path.after]
    simp only [List.length_append, List.length_cons]
    omega

/-- A walk through linked nodes ends when their entries have been passed. -/
theorem Linked.endsAt {steps : Nat} {l : Link} {entries : List (K × V)} (h : t.Linked none s)
    (hsize : s.size ≤ t.size) (hl : s.Ahead l entries) (hsteps : entries.length ≤ steps) :
    t.EndsAt steps l := by
  induction steps generalizing l entries with
  | zero =>
    cases hl with
    | done => trivial
    | node hs => exact absurd hsteps (Nat.not_succ_le_zero _)
  | succ steps ih =>
    cases hl with
    | done => trivial
    | node hs =>
      subst hs
      obtain ⟨next, entries, hsuccessor, hahead, hlength⟩ := h.successor hsize
      rw [List.length_cons] at hsteps
      exact ⟨next, hsuccessor, ih hahead (by omega)⟩

/-- The walk through an arena in which the check has counted all nodes has a start and an end. -/
theorem walk_ends (hroot : t.checkRoot = .ok ())
    (hbelow : t.checkBelow t.size t.root = .ok (n, t.size)) (hi : t.root = some i) :
    ∃ j, t.descend .left i = some j ∧ t.EndsAt t.size (some j) := by
  obtain ⟨s, hs, hlinked, -, -, hsize⟩ := exists_linked_root hroot hbelow
  obtain ⟨down, c, j, e, r, hdescend, hfill⟩ :=
    hlinked.descendFrom (hs.symm.trans hi) (Nat.le_of_eq hsize)
  have hahead : s.Ahead (some j) (e :: (r.toList ++ down.after)) := .node hfill
  refine ⟨j, hdescend, hlinked.endsAt (Nat.le_of_eq hsize) hahead ?_⟩
  have hlength := congrArg List.length (congrArg Shape.toList hfill)
  rw [Shape.length_toList, Path.toList_fill_node, List.length_append] at hlength
  omega

/-! ## The verdict -/

/-- The check of an arena ends: the recursion does, with one result at any depth that is allowed,
and so does the walk after it. Sound arenas pass with their black height. Arenas that pass stand for
a balanced shape as large as they are, and if no node is both children of another one, they are
sound. -/
theorem check_exact [Ord K] [Std.TransOrd K] (t : Tree K V) :
    (t.checkRoot = .ok () → t.EndsBelow t.size t.root ∧
      (∀ depth, t.size ≤ depth → t.checkBelow depth t.root = t.checkBelow t.size t.root) ∧
      ∀ n, t.checkBelow t.size t.root = .ok (n, t.size) → ∀ i, t.root = some i →
        ∃ j, t.descend .left i = some j ∧ t.EndsAt t.size (some j)) ∧
    (∀ n s, t.Sound n s → t.check = .ok n) ∧
    (∀ n, t.check = .ok n → ∃ s : Shape K V, t.root = s.root ∧ t.Linked none s ∧
      s.color = .black ∧ s.Balanced n ∧ s.size = t.size) ∧
    (t.Apart → ∀ n, t.check = .ok n ↔ ∃ s, t.Sound n s) := by
  refine ⟨?ends, fun n s h => h.check, ?balanced, ?exact⟩
  case ends =>
    intro hroot
    have hends := endsBelow_root hroot
    exact ⟨hends, fun depth hdepth => hends.checkBelow_eq hdepth,
      fun n hbelow i hi => walk_ends hroot hbelow hi⟩
  case balanced =>
    intro n h
    obtain ⟨hroot, hbelow, -⟩ := check_eq_ok.mp h
    exact exists_linked_root hroot hbelow
  case exact =>
    intro hapart n
    exact ⟨hapart.exists_sound, fun ⟨s, h⟩ => h.check⟩

theorem check_exact_balanced :
    let t : Tree Nat Nat :=
      ⟨#[⟨5, 0, none, some 1, some 2, .black⟩, ⟨3, 0, some 0, none, none, .red⟩,
        ⟨9, 0, some 0, none, none, .red⟩], some 0⟩
    t.checkRoot = .ok () ∧ t.EndsBelow t.size t.root ∧ t.Apart ∧ t.check = .ok 2 ∧
      ∃ s, t.Sound 2 s := by
  intro t
  obtain ⟨hends, -, -, hexact⟩ := check_exact t
  have hroot : t.checkRoot = .ok () := by decide
  have hapart : t.Apart := by decide
  have hcheck : t.check = .ok 2 := by decide
  exact ⟨hroot, (hends hroot).1, hapart, hcheck, (hexact hapart 2).mp hcheck⟩

/-- The node in slot 1 is both children of the root and is counted twice, which hides that nothing
leads to the node in slot 2. -/
theorem check_exact_twins :
    let t : Tree Nat Nat :=
      ⟨#[⟨5, 0, none, some 1, some 1, .black⟩, ⟨3, 0, some 0, none, none, .red⟩,
        ⟨9, 0, none, none, none, .red⟩], some 0⟩
    (∀ nd ∈ t.nodes, ∀ l ∈ [nd.parent, nd.left, nd.right], ∀ j ∈ l, j < t.size) ∧
      t.check = .ok 2 ∧ t.keys = [3] ∧ ¬∃ s, t.Sound 2 s := by
  intro t
  refine ⟨by decide, by decide, by decide, ?_⟩
  rintro ⟨s, h⟩
  have hlength : t.toList.length = t.size := by
    rw [h.focused.toList_eq, Shape.length_toList, h.size_eq]
  exact absurd hlength (by decide)

end Tree

end Dataflow.RedBlack

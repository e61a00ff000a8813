import Dataflow.Proofs.RedBlack.Arena
import Dataflow.RedBlack.Cursor

/-!
# Walking through an arena

A cursor stands before one of the entries of the tree and sees all that come after it, in order.

* `Tree.Focused.descend`: the way down a side ends at the last node there.
* `Shape.Ahead`: what lies ahead of a link.
* `Tree.Focused.successor`: the successor of a node stands before the entries behind it.
* `Tree.Focused.toList_eq`, `Tree.Focused.min?_eq`, `Tree.Focused.max?_eq`: whole walks, and the
  ends of the tree.
-/

namespace Dataflow.RedBlack

variable {K V : Type}

/-! ## The way down a side -/

/-- Nothing lies before a place to which only left turns lead. -/
theorem Path.before_eq_nil {down : Path K V} (h : ∀ d ∈ down, d.side = .left) :
    down.before = [] := by
  induction down with
  | nil => rfl
  | cons d down ih =>
    rw [before, h d List.mem_cons_self]
    exact ih fun d' hd' => h d' (List.mem_cons_of_mem _ hd')

/-- Nothing lies behind a place to which only right turns lead. -/
theorem Path.after_eq_nil {down : Path K V} (h : ∀ d ∈ down, d.side = .right) :
    down.after = [] := by
  induction down with
  | nil => rfl
  | cons d down ih =>
    rw [after, h d List.mem_cons_self]
    exact ih fun d' hd' => h d' (List.mem_cons_of_mem _ hd')

namespace Tree

variable {t : Tree K V} {path : Path K V} {s : Shape K V} {spare : Multiset (Cell K V)}

theorem Focused.descendFrom {fuel i : Nat} (h : t.Focused path s spare) (hs : s.root = some i)
    (hfuel : s.size ≤ fuel) (side : Side) :
    ∃ (down : Path K V) (c : Color) (j : Nat) (e : K × V) (far : Shape K V),
      t.descendFrom side fuel i = some j ∧ s = down.fill (.join side c j e .leaf far) ∧
        ∀ d ∈ down, d.side = side := by
  induction fuel generalizing path s i with
  | zero =>
    obtain ⟨e, near, far, hjoin⟩ := Shape.exists_join hs side
    rw [hjoin, Shape.size_join] at hfuel
    exact absurd hfuel (Nat.not_succ_le_zero _)
  | succ fuel ih =>
    obtain ⟨e, near, far, hjoin⟩ := Shape.exists_join hs side
    generalize s.color = c at hjoin
    subst hjoin
    rw [Tree.descendFrom, h.node?, Option.bind_eq_bind, Option.bind_some, Node.child_facing]
    cases hroot : near.root with
    | none =>
      exact ⟨[], c, i, e, far, rfl, by rw [Shape.eq_leaf hroot]; rfl, by simp⟩
    | some j =>
      have hsize : near.size ≤ fuel := by
        rw [Shape.size_join] at hfuel
        omega
      obtain ⟨down, c', k, e', far', hdescend, hfill, hsides⟩ :=
        ih (focused_join.mp h) hroot hsize
      refine ⟨down ++ [⟨side, c, i, e, far⟩], c', k, e', far', hdescend, ?_, ?_⟩
      · rw [Path.fill_append, ← hfill]
        rfl
      · intro d hd
        rcases List.mem_append.mp hd with hd | hd
        · exact hsides d hd
        · rw [List.mem_singleton.mp hd]

theorem Focused.descend {i : Nat} (h : t.Focused path s spare) (hs : s.root = some i)
    (side : Side) :
    ∃ (down : Path K V) (c : Color) (j : Nat) (e : K × V) (far : Shape K V),
      t.descend side i = some j ∧ s = down.fill (.join side c j e .leaf far) ∧
        ∀ d ∈ down, d.side = side :=
  h.descendFrom hs (Nat.le_trans (Nat.le_add_left _ _) h.length_add_size_le) side

end Tree

/-! ## What lies ahead -/

@[simp] theorem Path.after_append (path path' : Path K V) :
    after (path ++ path') = path.after ++ path'.after := by
  induction path with
  | nil => rfl
  | cons d path ih =>
    rw [List.cons_append, after, after, ih]
    cases d.side <;> simp

/-- A link names the node of the first of some entries, which are the last ones of the shape. -/
inductive Shape.Ahead (s : Shape K V) : Link → List (K × V) → Prop
  | done : Ahead s none []
  | node {path : Path K V} {c : Color} {l r : Shape K V} {i : Nat} {e : K × V}
      (hs : s = path.fill (.node c l i e r)) : Ahead s (some i) (e :: (r.toList ++ path.after))

namespace Tree

variable {t : Tree K V} {path : Path K V} {s : Shape K V} {spare : Multiset (Cell K V)}

/-- The way up from a subtree ends where its last entry has its successor. -/
theorem Focused.climbFrom {fuel i : Nat} (h : t.Focused path s spare) (hs : s.root = some i)
    (hfuel : path.length ≤ fuel) :
    ∃ next, t.climbFrom fuel i path.link = some next ∧ (path.fill s).Ahead next path.after := by
  induction path generalizing s i fuel with
  | nil => exact ⟨none, by cases fuel <;> rfl, .done⟩
  | cons d path ih =>
    obtain ⟨fuel, rfl⟩ : ∃ m, fuel = m + 1 := ⟨fuel - 1, by rw [List.length_cons] at hfuel; omega⟩
    have hne := h.sibling_ne (Or.inl (by simp [hs]))
    have hcrumb := h.crumb
    have hup := focused_cons.mp h
    obtain ⟨side, c, j, e, sibling⟩ := d
    rw [Path.link_cons, Tree.climbFrom, hcrumb, Option.bind_eq_bind, Option.bind_some, hs]
    rw [hs] at hne
    cases side with
    | left => exact ⟨some j, if_neg hne, .node rfl⟩
    | right =>
      obtain ⟨next, hclimb, hahead⟩ := ih hup (Crumb.root_plug _ _) (Nat.le_of_succ_le_succ hfuel)
      exact ⟨next, (if_pos rfl).trans hclimb, hahead⟩

/-- The successor of a node stands before the entries behind it. -/
theorem Focused.successor {c : Color} {l r : Shape K V} {i : Nat} {e : K × V}
    (h : t.Focused path (.node c l i e r) spare) :
    ∃ next, t.successor i = some next ∧
      (path.fill (.node c l i e r)).Ahead next (r.toList ++ path.after) := by
  unfold Tree.successor
  rw [node?_of_cells h.cells_node, Option.bind_eq_bind, Option.bind_some]
  cases hr : r.root with
  | none =>
    have hlength := h.length_add_size_le
    obtain rfl := Shape.eq_leaf hr
    exact h.climbFrom rfl (Nat.le_trans (Nat.le_add_right _ _) hlength)
  | some rz =>
    obtain ⟨down, c', j, e', far, hdescend, rfl, hdown⟩ := (focused_right.mp h).descend hr .left
    refine ⟨some j, by dsimp only; rw [hdescend]; rfl, ?_⟩
    have hahead : Shape.Ahead (path.fill (.node c l i e (down.fill (.join .left c' j e' .leaf far))))
        (some j) (e' :: (far.toList ++ Path.after (down ++ ⟨.right, c, i, e, l⟩ :: path))) :=
      .node (Path.fill_append down (⟨.right, c, i, e, l⟩ :: path) _).symm
    rw [Path.toList_fill, Path.before_eq_nil hdown]
    simpa [Shape.toList, Path.after] using hahead

/-! ## Cursors -/

theorem Focused.first (h : t.Focused [] s spare) : s.Ahead t.first.position s.toList := by
  have hroot : t.root = s.root := h.root_eq
  unfold Tree.first
  rw [hroot]
  cases hs : s.root with
  | none =>
    rw [Shape.eq_leaf hs]
    exact .done
  | some i =>
    obtain ⟨down, c, j, e, far, hdescend, rfl, hdown⟩ := h.descend hs .left
    dsimp only
    rw [Option.bind_some, hdescend, Path.toList_fill, Path.before_eq_nil hdown]
    exact .node rfl

/-- A cursor yields the entries ahead of it one by one. -/
theorem Focused.next {l : Link} {e : K × V} {rest : List (K × V)} (h : t.Focused [] s spare)
    (hl : s.Ahead l (e :: rest)) :
    ∃ l', Cursor.next ⟨t, l⟩ = some (e, ⟨t, l'⟩) ∧ s.Ahead l' rest := by
  generalize hentries : e :: rest = entries at hl
  cases hl with
  | done => cases hentries
  | node hs =>
    subst hs
    cases hentries
    have hnode := focused_fill.mpr h
    obtain ⟨next, hsuccessor, hahead⟩ := hnode.successor
    refine ⟨next, ?_, hahead⟩
    simp only [Cursor.next, node?_of_cells hnode.cells_node, hsuccessor, Option.bind_eq_bind,
      Option.bind_some]
    rfl

theorem Focused.next_none {l : Link} (hl : s.Ahead l []) : Cursor.next ⟨t, l⟩ = none := by
  cases hl
  rfl

theorem Focused.take {l : Link} {entries : List (K × V)} (h : t.Focused [] s spare)
    (hl : s.Ahead l entries) (count : Nat) :
    ∃ l', Cursor.take count ⟨t, l⟩ = (entries.take count, ⟨t, l'⟩) ∧
      s.Ahead l' (entries.drop count) := by
  induction count generalizing l entries with
  | zero => exact ⟨l, rfl, hl⟩
  | succ count ih =>
    cases entries with
    | nil => exact ⟨l, by rw [Cursor.take, Focused.next_none hl, List.take_nil], hl⟩
    | cons e rest =>
      obtain ⟨l₁, hnext, hl₁⟩ := h.next hl
      obtain ⟨l', htake, hl'⟩ := ih hl₁
      exact ⟨l', by rw [Cursor.take, hnext]; dsimp only; rw [htake]; rfl, hl'⟩

theorem Focused.cursor_toList {l : Link} {entries : List (K × V)} (h : t.Focused [] s spare)
    (hl : s.Ahead l entries) (hlength : entries.length ≤ t.size) :
    Cursor.toList ⟨t, l⟩ = entries := by
  obtain ⟨l', htake, -⟩ := h.take hl t.size
  rw [Cursor.toList, htake]
  exact List.take_of_length_le hlength

/-- A walk from the first entry on yields all entries in order. -/
theorem Focused.toList_eq (h : t.Focused [] s spare) : t.toList = s.toList := by
  have hsize := h.length_add_size_le
  rw [List.length_nil, Nat.zero_add, ← Shape.length_toList] at hsize
  exact h.cursor_toList h.first hsize

/-! ## The ends -/

theorem Focused.extreme? (h : t.Focused [] s spare) (side : Side) :
    s = .leaf ∧ t.extreme? side = none ∨
      ∃ (down : Path K V) (c : Color) (j : Nat) (e : K × V) (far : Shape K V),
        s = down.fill (.join side c j e .leaf far) ∧ (∀ d ∈ down, d.side = side) ∧
          t.extreme? side = some e := by
  have hroot : t.root = s.root := h.root_eq
  unfold Tree.extreme?
  rw [hroot]
  cases hs : s.root with
  | none => exact Or.inl ⟨Shape.eq_leaf hs, rfl⟩
  | some i =>
    obtain ⟨down, c, j, e, far, hdescend, rfl, hdown⟩ := h.descend hs side
    refine Or.inr ⟨down, c, j, e, far, rfl, hdown, ?_⟩
    simp only [hdescend, (focused_fill.mpr h).node?, Option.bind_eq_bind, Option.bind_some,
      Node.entry_facing]
    rfl

theorem Focused.min?_eq (h : t.Focused [] s spare) : t.min? = s.toList.head? := by
  rcases h.extreme? .left with ⟨rfl, hmin⟩ | ⟨down, c, j, e, far, rfl, hdown, hmin⟩
  · exact hmin
  · rw [Path.toList_fill, Path.before_eq_nil hdown]
    exact hmin

theorem Focused.max?_eq (h : t.Focused [] s spare) : t.max? = s.toList.getLast? := by
  rcases h.extreme? .right with ⟨rfl, hmax⟩ | ⟨down, c, j, e, far, rfl, hdown, hmax⟩
  · exact hmax
  · rw [Path.toList_fill, Path.after_eq_nil hdown]
    simpa [Shape.toList, Tree.max?] using hmax

end Tree

end Dataflow.RedBlack

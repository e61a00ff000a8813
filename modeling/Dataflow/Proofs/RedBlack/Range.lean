import Dataflow.Proofs.RedBlack.Commands

/-!
# Walks from a key on

A cursor hands out the entries ahead of it one by one, says before each of them which key comes
next, and bounds how many are still to come. The search for a lower bound places it before the
first entry whose key is not below the given one, so that a walk can be taken up again later,
whatever has become of the tree in the meantime.

* `Tree.lowerBoundFrom?`: the search for a lower bound with all its steps checked.
* `Tree.Focused.lowerBoundFrom?`: it ends before the first entry that is not below the key.
* `Cursor.Yields`: what a cursor hands out and says on the way.
* `Tree.Focused.yields`: a cursor yields the entries ahead of it.
* `Tree.run_walks`: the walks through the trees that commands build.
-/

namespace Dataflow.RedBlack

open Std

variable {K V : Type}

/-! ## The lower bound -/

namespace Tree

variable [Ord K] {t : Tree K V} {path : Path K V} {s : Shape K V} {spare : Multiset (Cell K V)}
  {k : K}

/-- Search for the first slot whose key is not below `k`, with all steps checked. -/
def lowerBoundFrom? (t : Tree K V) (k : K) : (fuel : Nat) → Link → (best : Link) → Option Link
  | _, none, best => some best
  | 0, some _, _ => none
  | fuel + 1, some i, best => do
    let n ← t.node? i
    if compare n.key k = .lt then t.lowerBoundFrom? k fuel n.right best
    else t.lowerBoundFrom? k fuel n.left (some i)

theorem lowerBoundFrom_eq {fuel : Nat} {l best found : Link}
    (h : t.lowerBoundFrom? k fuel l best = some found) :
    t.lowerBoundFrom k fuel l best = found := by
  induction fuel generalizing l best with
  | zero =>
    cases l with
    | none => exact Option.some.inj h
    | some i => cases h
  | succ fuel ih =>
    cases l with
    | none => exact Option.some.inj h
    | some i =>
      rw [lowerBoundFrom?] at h
      rw [lowerBoundFrom]
      cases hnode : t.node? i with
      | none =>
        rw [hnode] at h
        cases h
      | some n =>
        rw [hnode, Option.bind_eq_bind, Option.bind_some] at h
        dsimp only
        split at h
        · rw [if_pos ‹_›, ih h]
        · rw [if_neg ‹_›, ih h]

/-- All entries before the place are below the key and none behind it is, and `best` stands before
the latter. -/
theorem Focused.lowerBoundFrom? [TransOrd K] {fuel : Nat} {best : Link}
    (h : t.Focused path s spare) (hsorted : SortedMap.Sorted ⟨(path.fill s).toList⟩)
    (hbefore : ∀ a ∈ path.before, compare a.1 k = .lt)
    (hafter : ∀ a ∈ path.after, compare a.1 k ≠ .lt)
    (hbest : (path.fill s).Ahead best path.after) (hfuel : s.size ≤ fuel) :
    ∃ found, t.lowerBoundFrom? k fuel s.root best = some found ∧
      (path.fill s).Ahead found ((path.fill s).toList.filter fun a => compare a.1 k != .lt) := by
  induction s generalizing path fuel best with
  | leaf =>
    refine ⟨best, by cases fuel <;> rfl, ?_⟩
    have hnone : path.before.filter (fun a => compare a.1 k != .lt) = [] :=
      List.filter_eq_nil_iff.mpr fun a ha => by simp [hbefore a ha]
    have hall : path.after.filter (fun a => compare a.1 k != .lt) = path.after :=
      List.filter_eq_self.mpr fun a ha => by simpa using hafter a ha
    rw [Path.toList_fill_leaf, List.filter_append, hnone, hall]
    exact hbest
  | node c l i e r ihl ihr =>
    obtain ⟨fuel, rfl⟩ : ∃ m, fuel = m + 1 := ⟨fuel - 1, by rw [Shape.size] at hfuel; omega⟩
    have hl : t.Focused (⟨.left, c, i, e, r⟩ :: path) l spare := focused_left.mp h
    have hr : t.Focused (⟨.right, c, i, e, l⟩ :: path) r spare := focused_right.mp h
    obtain ⟨hleft, hright⟩ := pairwise_fill hsorted
    rw [Shape.size] at hfuel
    rw [Shape.root, Tree.lowerBoundFrom?, node?_of_cells h.cells_node, Option.bind_eq_bind,
      Option.bind_some]
    dsimp only
    by_cases hlt : compare e.1 k = .lt
    · rw [if_pos hlt]
      refine ihr hr hsorted (fun a ha => ?_) hafter hbest (by omega)
      rcases List.mem_append.mp ha with ha | ha
      · exact hbefore a ha
      · rcases List.mem_append.mp ha with ha | ha
        · exact TransCmp.lt_trans (hleft a ha) hlt
        · rw [List.mem_singleton.mp ha]
          exact hlt
    · rw [if_neg hlt]
      refine ihl hl hsorted hbefore (fun a ha => ?_) (.node rfl) (by omega)
      rcases List.mem_cons.mp ha with rfl | ha
      · exact hlt
      · rcases List.mem_append.mp ha with ha | ha
        · exact fun halt => hlt (TransCmp.lt_trans (hright a ha) halt)
        · exact hafter a ha

/-- The search for a lower bound takes all its steps. -/
theorem Focused.lowerBound [TransOrd K] (h : t.Focused [] s spare)
    (hsorted : SortedMap.Sorted ⟨s.toList⟩) (k : K) :
    t.lowerBoundFrom? k t.size t.root none = some (t.lowerBound k).position ∧
      s.Ahead (t.lowerBound k).position (s.toList.filter fun a => compare a.1 k != .lt) := by
  have hsize : s.size ≤ t.size := Nat.le_trans (Nat.le_add_left _ _) h.length_add_size_le
  have hdone : s.Ahead none (Path.after []) := .done
  obtain ⟨found, hfound, hahead⟩ := h.lowerBoundFrom? (k := k) hsorted (by simp [Path.before])
    (by simp [Path.after]) hdone hsize
  have hroot : t.root = s.root := h.root_eq
  rw [← hroot] at hfound
  obtain rfl := lowerBoundFrom_eq hfound
  exact ⟨hfound, hahead⟩

end Tree

/-! ## Cursors -/

/-- A cursor hands out some entries one by one and then nothing, however often it is asked. Before
every step it knows the next key and bounds the number of entries to come. -/
structure Cursor.Yields (c : Cursor K V) (entries : List (K × V)) : Prop where
  take_eq : ∀ n, (c.take n).1 = entries.take n
  next_eq : ∀ n, (c.take n).2.next.map (·.1) = entries[n]?
  peek_eq : ∀ n, (c.take n).2.peek = entries[n]?.map (·.1)
  lower_le : ∀ n, (c.take n).2.bounds.1 ≤ (entries.drop n).length
  le_upper : ∀ n, (entries.drop n).length ≤ (c.take n).2.bounds.2

/-- What lies ahead of a link is the end of the walk through all. -/
theorem Shape.Ahead.suffix {s : Shape K V} {l : Link} {entries : List (K × V)}
    (h : s.Ahead l entries) : entries <:+ s.toList := by
  cases h with
  | done => exact List.nil_suffix
  | node hs =>
    rw [hs, Path.toList_fill_node]
    exact List.suffix_append _ _

namespace Tree

variable {t : Tree K V} {s : Shape K V} {spare : Multiset (Cell K V)} {l : Link}
  {entries : List (K × V)}

theorem Focused.peek (h : t.Focused [] s spare) (hl : s.Ahead l entries) :
    Cursor.peek ⟨t, l⟩ = entries.head?.map (·.1) := by
  cases hl with
  | done => rfl
  | node hs =>
    subst hs
    rw [Cursor.peek, Option.bind_eq_bind, Option.bind_some,
      node?_of_cells (focused_fill.mpr h).cells_node]
    rfl

theorem Focused.next_fst (h : t.Focused [] s spare) (hl : s.Ahead l entries) :
    (Cursor.next ⟨t, l⟩).map (·.1) = entries.head? := by
  cases entries with
  | nil => rw [Focused.next_none hl, Option.map_none, List.head?_nil]
  | cons e rest =>
    obtain ⟨l', hnext, -⟩ := h.next hl
    rw [hnext, Option.map_some, List.head?_cons]

theorem Focused.bounds (h : t.Focused [] s spare) (hl : s.Ahead l entries) :
    (Cursor.bounds ⟨t, l⟩).1 ≤ entries.length ∧ entries.length ≤ (Cursor.bounds ⟨t, l⟩).2 := by
  have hle := hl.suffix.length_le
  have hsize := h.length_add_size_le
  rw [Shape.length_toList] at hle
  cases hl with
  | done => exact ⟨Nat.zero_le _, Nat.zero_le _⟩
  | node _ =>
    exact ⟨Nat.succ_pos _, Nat.le_trans hle (Nat.le_trans (Nat.le_add_left _ _) hsize)⟩

/-- A cursor yields the entries ahead of it. -/
theorem Focused.yields (h : t.Focused [] s spare) (hl : s.Ahead l entries) :
    Cursor.Yields ⟨t, l⟩ entries := by
  have hstep : ∀ n, ∃ l', Cursor.take n ⟨t, l⟩ = (entries.take n, ⟨t, l'⟩) ∧
      s.Ahead l' (entries.drop n) := h.take hl
  constructor
  all_goals
    intro n
    obtain ⟨l', htake, hl'⟩ := hstep n
    rw [htake]
  case next_eq => rw [h.next_fst hl', List.head?_drop]
  case peek_eq => rw [h.peek hl', List.head?_drop]
  case lower_le => exact (h.bounds hl').1
  case le_upper => exact (h.bounds hl').2

variable [Ord K]

/-- The walks through a tree, from its first entry on and from any key on, are those through a map
whose entries ascend strictly. -/
structure Walks (t : Tree K V) (m : SortedMap K V) : Prop where
  ascending : m.Sorted
  all : t.first.Yields m.entries
  from_key : ∀ k, (t.lowerBound k).Yields (m.entriesFrom k)

variable [TransOrd K] {m : SortedMap K V}

theorem Represents.walks (h : t.Represents m) : t.Walks m := by
  obtain ⟨⟨s, n, hs, -, -, hlist⟩, hsorted⟩ := h
  refine ⟨hsorted, ?_, fun k => ?_⟩
  · rw [← hlist]
    exact hs.yields hs.first
  · rw [SortedMap.entriesFrom, ← hlist]
    rw [SortedMap.Sorted, ← hlist] at hsorted
    exact hs.yields (hs.lowerBound hsorted k).2

end Tree

/-! ## Taking a walk up again -/

variable [Ord K] [TransOrd K]

/-- A key above the last entry that was handed out is above all of them, and so is every entry from
that key on. -/
theorem Cursor.Yields.precede {c : Cursor K V} {entries : List (K × V)} (h : c.Yields entries)
    (hsorted : SortedMap.Sorted ⟨entries⟩) {n : Nat} {k : K}
    (hlast : ∀ e ∈ (c.take n).1.getLast?, compare e.1 k = .lt) (m : SortedMap K V) :
    ∀ a ∈ (c.take n).1, ∀ b ∈ m.entriesFrom k, compare a.1 b.1 = .lt := by
  intro a ha b hb
  have hbelow : compare a.1 k = .lt := by
    obtain ⟨e, he⟩ : ∃ e, (c.take n).1.getLast? = some e :=
      Option.isSome_iff_exists.mp (List.getLast?_isSome.mpr (List.ne_nil_of_mem ha))
    obtain ⟨before, hsplit⟩ := List.getLast?_eq_some_iff.mp he
    have htaken : (c.take n).1.Pairwise fun a b => compare a.1 b.1 = .lt := by
      rw [h.take_eq]
      exact List.Pairwise.sublist (List.take_sublist n entries) hsorted
    rw [hsplit] at htaken ha
    rcases List.mem_append.mp ha with ha | ha
    · exact TransCmp.lt_trans
        ((List.pairwise_append.mp htaken).2.2 a ha e List.mem_cons_self) (hlast e he)
    · rw [List.mem_singleton.mp ha]
      exact hlast e he
  have habove : compare b.1 k ≠ .lt := by simpa using (List.mem_filter.mp hb).2
  cases hcompare : compare b.1 k with
  | lt => exact absurd hcompare habove
  | eq => rwa [TransCmp.congr_right hcompare]
  | gt => exact TransCmp.lt_trans hbelow (OrientedCmp.lt_of_gt hcompare)

namespace Tree

/-- Whatever commands a tree has been given, walks through it yield its entries in ascending order,
all of them or those from a key on. A walk that was left after some entries can be taken up again at
any key above the last of them, whatever commands have been given in the meantime: it yields what
the tree has from that key on, and nothing a second time. -/
theorem run_walks (entries : List (K × V)) (earlier later : List (Command K V)) :
    let t := ((ofList entries).run earlier).2
    let m := ((SortedMap.ofList entries).run earlier).2
    t.Walks m ∧ (t.run later).2.Walks (m.run later).2 ∧
      ∀ c, (c = t.first ∨ ∃ k, c = t.lowerBound k) → ∀ n k,
        (∀ e ∈ (c.take n).1.getLast?, compare e.1 k = .lt) →
        ((t.run later).2.lowerBound k).Yields ((m.run later).2.entriesFrom k) ∧
        ∀ a ∈ (c.take n).1, ∀ b ∈ (m.run later).2.entriesFrom k, compare a.1 b.1 = .lt := by
  intro t m
  obtain ⟨-, h⟩ := (represents_ofList entries).run earlier
  obtain ⟨-, h'⟩ := h.run later
  refine ⟨h.walks, h'.walks, ?_⟩
  rintro c (rfl | ⟨k₀, rfl⟩) n k hlast
  · exact ⟨h'.walks.from_key k, h.walks.all.precede h.sorted hlast _⟩
  · have hsorted : SortedMap.Sorted ⟨m.entriesFrom k₀⟩ := List.Pairwise.filter _ h.sorted
    exact ⟨h'.walks.from_key k, (h.walks.from_key k₀).precede hsorted hlast _⟩

/-- Two entries are taken, an entry is put in behind them and another one is removed. -/
theorem run_walks_resumed :
    let t : Tree Nat Char := ofList [(30, 'c'), (10, 'a'), (50, 'e'), (20, 'b'), (40, 'd')]
    let t' := (t.run [.insert 25 'x', .remove 40]).2
    (t.first.take 2).1 = [(10, 'a'), (20, 'b')] ∧
      (∀ n, ((t'.lowerBound 21).take n).1 = [(25, 'x'), (30, 'c'), (50, 'e')].take n) ∧
      ∀ a ∈ (t.first.take 2).1, a.1 < 25 := by
  intro t t'
  have htaken : (t.first.take 2).1 = [(10, 'a'), (20, 'b')] := by decide +kernel
  have hlast : ∀ e ∈ (t.first.take 2).1.getLast?, compare e.1 21 = .lt := by
    rw [htaken]
    decide
  obtain ⟨-, -, hresume⟩ := run_walks
    [(30, 'c'), (10, 'a'), (50, 'e'), (20, 'b'), (40, 'd')] [] [.insert 25 'x', .remove 40]
  obtain ⟨hyields, hbelow⟩ := hresume t.first (.inl rfl) 2 21 hlast
  refine ⟨htaken, hyields.take_eq, fun a ha => ?_⟩
  exact Nat.compare_eq_lt.mp (hbelow a ha (25, 'x') (by decide))

end Tree

end Dataflow.RedBlack

import Mathlib.Data.List.Induction
import Mathlib.Data.List.Nodup
import Dataflow.Proofs.Log.Soundness

/-!
# The index of a log as a list in the order of use

Whatever an index is asked, it answers as a list of keys does in which the key that was used last
stands in front, and from whose end a key is dropped when there is no room for a new one. The clock
and the stamps, by which the index tells old uses from new ones, do not show.

* `RecencyList`: the list.
* `RecencyIndex.Command`, `RecencyIndex.run`, `RecencyList.run`: what either is asked, and runs.
* `RecencyIndex.Mirrors`: the stamps of an index put its entries in the order of a list.
* `RecencyIndex.Mirrors.get`, `Mirrors.insert`: every use keeps it.
* `RecencyIndex.run_exact`: the answers to a run, and what holds of the index afterwards.
-/

namespace Dataflow

open Std

/-! ## The list -/

/-- A bounded list of keys with their extents, the key that was used last in front. -/
structure RecencyList where
  entries : List (Bytes × Extent) := []
  bound : Nat
  deriving DecidableEq, Repr

namespace RecencyList

/-- An empty list with room for a number of keys, one at least. -/
def ofCapacity (capacity : Nat) : RecencyList := { bound := max capacity 1 }

def find? (l : RecencyList) (key : Bytes) : Option Extent :=
  (l.entries.find? (·.1 = key)).map (·.2)

/-- Move a key to the front and give it an extent. -/
def use (l : RecencyList) (key : Bytes) (extent : Extent) : RecencyList :=
  { l with entries := (key, extent) :: l.entries.filter (·.1 ≠ key) }

/-- The extent of a key. A key that is there moves to the front. -/
def get (l : RecencyList) (key : Bytes) : Option Extent × RecencyList :=
  match l.find? key with
  | none => (none, l)
  | some extent => (some extent, l.use key extent)

/-- Use a key and say where its record lies. A key that is there keeps an extent with a greater
sequence number. For a new key the last one has to go if the list is full; it comes first. -/
def insert (l : RecencyList) (key : Bytes) (extent : Extent) : Option Bytes × RecencyList :=
  match l.find? key with
  | some known =>
    (none, l.use key (if known.sequence.number ≤ extent.sequence.number then extent else known))
  | none =>
    if l.bound ≤ l.entries.length then
      (l.entries.getLast?.map (·.1), { l with entries := (key, extent) :: l.entries.dropLast })
    else
      (none, { l with entries := (key, extent) :: l.entries })

end RecencyList

/-! ## Runs -/

namespace RecencyIndex

/-- What an index is asked. -/
inductive Command
  | insert (key : Bytes) (extent : Extent)
  | get (key : Bytes)
  | contains (key : Bytes)

/-- What it answers. -/
inductive Answer
  | inserted (evicted : Option Bytes)
  | found (extent : Option Extent)
  | membership (present : Bool)
  deriving DecidableEq

/-- A key had to go. -/
def Answer.isEviction : Answer → Bool
  | .inserted evicted => evicted.isSome
  | _ => false

def apply (x : RecencyIndex) : Command → Answer × RecencyIndex
  | .insert key extent =>
    let (evicted, x) := x.insert key extent
    (.inserted evicted, x)
  | .get key =>
    let (extent, x) := x.get key
    (.found extent, x)
  | .contains key => (.membership (x.contains key), x)

def run (x : RecencyIndex) : List Command → List Answer × RecencyIndex
  | [] => ([], x)
  | c :: commands =>
    let (answer, x) := x.apply c
    let (answers, x) := x.run commands
    (answer :: answers, x)

end RecencyIndex

namespace RecencyList

open RecencyIndex (Command Answer)

def apply (l : RecencyList) : Command → Answer × RecencyList
  | .insert key extent =>
    let (evicted, l) := l.insert key extent
    (.inserted evicted, l)
  | .get key =>
    let (extent, l) := l.get key
    (.found extent, l)
  | .contains key => (.membership (l.find? key).isSome, l)

def run (l : RecencyList) : List Command → List Answer × RecencyList
  | [] => ([], l)
  | c :: commands =>
    let (answer, l) := l.apply c
    let (answers, l) := l.run commands
    (answer :: answers, l)

end RecencyList

/-! ## The oldest entry -/

theorem SortedMap.perm_insertEntry {K V : Type} [Ord K] {k : K} {v : V} {entries : List (K × V)}
    (h : ∀ e ∈ entries, compare k e.1 ≠ .eq) :
    (insertEntry k v entries).Perm ((k, v) :: entries) := by
  induction entries with
  | nil => exact .refl _
  | cons e rest ih =>
    obtain ⟨he, hrest⟩ := List.forall_mem_cons.mp h
    rw [insertEntry]
    split
    · exact .refl _
    · rename_i heq
      exact absurd heq he
    · exact ((ih hrest).cons e).trans (.swap _ _ _)

namespace RecencyIndex

/-- An entry, unless the one that was found before it is older. -/
def older (best : Option (Bytes × IndexEntry)) (e : Bytes × IndexEntry) :
    Option (Bytes × IndexEntry) :=
  best.elim (some e) fun b => if e.2.stamp < b.2.stamp then some e else some b

theorem leastRecent?_eq_foldl (entries : List (Bytes × IndexEntry)) :
    leastRecent? entries = (entries.foldl older none).map (·.1) := by
  unfold leastRecent?
  congr 2
  funext best e
  cases best <;> rfl

/-- The entry that is found to be used longest ago is one of the entries, and none is older. -/
theorem foldl_older_cases (entries : List (Bytes × IndexEntry)) :
    entries = [] ∨ ∃ e ∈ entries, entries.foldl older none = some e ∧
      ∀ e' ∈ entries, e.2.stamp ≤ e'.2.stamp := by
  induction entries using List.reverseRecOn with
  | nil => exact .inl rfl
  | append_singleton entries e ih =>
    refine .inr ?_
    rw [List.foldl_append]
    simp only [List.forall_mem_append, List.forall_mem_singleton, List.foldl_cons, List.foldl_nil]
    rcases ih with rfl | ⟨best, hbest, hfold, hle⟩
    · exact ⟨e, by simp, rfl, by simp, Nat.le_refl _⟩
    · rw [hfold, older, Option.elim_some]
      by_cases hlt : e.2.stamp < best.2.stamp
      · refine ⟨e, by simp, if_pos hlt, fun e' he' => ?_, Nat.le_refl _⟩
        exact Nat.le_trans (Nat.le_of_lt hlt) (hle e' he')
      · exact ⟨best, List.mem_append_left _ hbest, if_neg hlt, hle, Nat.le_of_not_lt hlt⟩

/-- If the entries are listed from the last use to the first, the oldest is the last in the list. -/
theorem leastRecent?_eq {entries es : List (Bytes × IndexEntry)} (hperm : entries.Perm es)
    (hrecent : es.Pairwise fun a b => b.2.stamp < a.2.stamp) :
    leastRecent? entries = es.getLast?.map (·.1) := by
  rw [leastRecent?_eq_foldl]
  rcases foldl_older_cases entries with rfl | ⟨e, he, hleast, hle⟩
  · obtain rfl := hperm.nil_eq
    rfl
  · obtain ⟨init, last, rfl⟩ : ∃ init last, es = init ++ [last] := by
      refine (List.eq_nil_or_concat' es).resolve_left ?_
      rintro rfl
      rw [hperm.eq_nil] at he
      cases he
    obtain ⟨-, -, hlast⟩ := List.pairwise_append.mp hrecent
    have hlastmem : last ∈ entries := hperm.mem_iff.mpr (by simp)
    rw [hleast, List.getLast?_concat, Option.map_some, Option.map_some]
    rcases List.mem_append.mp (hperm.mem_iff.mp he) with hinit | hfound
    · have hlt := hlast e hinit last (List.mem_singleton.mpr rfl)
      have hge := hle last hlastmem
      omega
    · rw [List.mem_singleton.mp hfound]

/-! ## The order of the stamps -/

/-- Some entries are those of an index, from the last use to the first, and a list has them in this
order. -/
structure Mirrors (x : RecencyIndex) (l : RecencyList) (es : List (Bytes × IndexEntry)) : Prop where
  sorted : x.entries.Sorted
  perm : x.entries.entries.Perm es
  recent : es.Pairwise fun a b => b.2.stamp < a.2.stamp
  stamp_le : ∀ e ∈ es, e.2.stamp ≤ x.clock
  entries_eq : l.entries = es.map fun e => (e.1, e.2.extent)
  bound_eq : x.capacity = l.bound
  length_le : es.length ≤ l.bound
  bound_pos : 0 < l.bound

theorem mirrors_ofCapacity (capacity : Nat) :
    Mirrors (ofCapacity capacity) (.ofCapacity capacity) [] where
  sorted := SortedMap.sorted_empty
  perm := .refl _
  recent := .nil
  stamp_le := by simp
  entries_eq := rfl
  bound_eq := rfl
  length_le := Nat.zero_le _
  bound_pos := Nat.le_max_right _ _

namespace Mirrors

variable {x : RecencyIndex} {l : RecencyList} {es : List (Bytes × IndexEntry)}

theorem nodup_keys (h : Mirrors x l es) : (es.map (·.1)).Nodup := by
  have hkeys : (x.entries.entries.map (·.1)).Nodup := SortedMap.nodup_keys h.sorted
  exact (h.perm.map (·.1)).nodup_iff.mp hkeys

theorem get?_eq_some_iff (h : Mirrors x l es) {key : Bytes} {entry : IndexEntry} :
    x.entries.get? key = some entry ↔ (key, entry) ∈ es := by
  rw [SortedMap.get?_eq_some_iff h.sorted]
  exact h.perm.mem_iff

theorem size_eq (h : Mirrors x l es) : x.size = es.length := h.perm.length_eq

theorem length_entries (h : Mirrors x l es) : l.entries.length = es.length := by
  rw [h.entries_eq, List.length_map]

theorem find?_eq (h : Mirrors x l es) (key : Bytes) :
    l.find? key = (x.entries.get? key).map (·.extent) := by
  rw [RecencyList.find?, h.entries_eq, List.find?_map, Option.map_map]
  cases hfind : es.find? ((fun e => decide (e.1 = key)) ∘ fun e => (e.1, e.2.extent)) with
  | none =>
    have hnone : x.entries.get? key = none := by
      rw [Option.eq_none_iff_forall_not_mem]
      intro entry hentry
      have hmem := h.get?_eq_some_iff.mp hentry
      simpa using List.find?_eq_none.mp hfind _ hmem
    rw [hnone]
    rfl
  | some e =>
    obtain rfl : e.1 = key := by simpa using List.find?_some hfind
    rw [h.get?_eq_some_iff.mpr (List.mem_of_find?_eq_some hfind)]
    rfl

theorem contains_eq (h : Mirrors x l es) (key : Bytes) :
    x.contains key = (l.find? key).isSome := by
  rw [h.find?_eq, Option.isSome_map, Log.contains_index]

/-- Without a key, the entries are those of the map from which the key is erased. -/
theorem perm_filter (h : Mirrors x l es) (key : Bytes) :
    (x.entries.erase key).entries.Perm (es.filter (·.1 ≠ key)) := by
  have hfilter : (x.entries.erase key).entries = x.entries.entries.filter (·.1 ≠ key) := by
    refine List.filter_congr fun e _ => ?_
    by_cases hkey : key = e.1
    · simp [hkey]
    · simp [hkey, Ne.symm hkey]
  rw [hfilter]
  exact h.perm.filter _

/-- A key that is there is used, at a time after all others. -/
theorem use (h : Mirrors x l es) {key : Bytes} {known : IndexEntry}
    (hknown : x.entries.get? key = some known) {now : Nat} (hnow : x.clock < now)
    (extent : Extent) {f : IndexEntry → IndexEntry} (hf : f known = ⟨extent, now⟩) :
    Mirrors { x with entries := x.entries.modify key f, clock := now } (l.use key extent)
        ((key, ⟨extent, now⟩) :: es.filter (·.1 ≠ key)) ∧
      (es.filter (·.1 ≠ key)).length + 1 = es.length := by
  obtain ⟨before, after, hentries, hcut⟩ := SortedMap.exists_cut h.sorted hknown
  have hself : compare key key = .eq := ReflCmp.compare_self
  have hmodified := hcut.modify_present (e := (key, known)) hself hentries f
  have herased := hcut.erase_present (e := (key, known)) hself hentries
  have hperm : (x.entries.modify key f).entries.Perm
      ((key, ⟨extent, now⟩) :: es.filter (·.1 ≠ key)) := by
    rw [hmodified, hf]
    refine List.perm_middle.trans (.cons _ ?_)
    rw [← herased]
    exact h.perm_filter key
  have hlength : (es.filter (·.1 ≠ key)).length + 1 = es.length := by
    rw [← h.perm.length_eq, hentries, ← (h.perm_filter key).length_eq, herased]
    simp only [List.length_append, List.length_cons]
    omega
  have hsub : ∀ e ∈ es.filter (·.1 ≠ key), e.2.stamp ≤ x.clock :=
    fun e he => h.stamp_le e (List.mem_of_mem_filter he)
  refine ⟨?_, hlength⟩
  constructor
  case sorted => exact SortedMap.sorted_modify h.sorted key f
  case perm => exact hperm
  case recent =>
    refine List.pairwise_cons.mpr ⟨fun e he => ?_, h.recent.filter _⟩
    exact Nat.lt_of_le_of_lt (hsub e he) hnow
  case stamp_le =>
    refine List.forall_mem_cons.mpr ⟨Nat.le_refl _, fun e he => ?_⟩
    exact Nat.le_trans (hsub e he) (Nat.le_of_lt hnow)
  case entries_eq =>
    show (key, extent) :: l.entries.filter (·.1 ≠ key) = _
    rw [h.entries_eq, List.filter_map, List.map_cons]
    rfl
  case bound_eq => exact h.bound_eq
  case length_le => exact Nat.le_trans (Nat.le_of_eq hlength) h.length_le
  case bound_pos => exact h.bound_pos

/-- A new key for which there is room. -/
theorem insert_vacant (h : Mirrors x l es) {key : Bytes} (hmissing : x.entries.get? key = none)
    (hroom : es.length < l.bound) {now : Nat} (hnow : ∀ e ∈ es, e.2.stamp < now)
    (extent : Extent) :
    Mirrors { x with entries := x.entries.insert key ⟨extent, now⟩, clock := now }
      { l with entries := (key, extent) :: l.entries } ((key, ⟨extent, now⟩) :: es) := by
  have hnew : ∀ e ∈ x.entries.entries, compare key e.1 ≠ .eq := by
    intro e he heq
    have hkey : key = e.1 := LawfulEqCmp.eq_of_compare heq
    exact SortedMap.get?_eq_none_iff.mp hmissing (hkey ▸ List.mem_map_of_mem he)
  constructor
  case sorted => exact SortedMap.sorted_insert h.sorted _ _
  case perm => exact (SortedMap.perm_insertEntry hnew).trans (.cons _ h.perm)
  case recent => exact List.pairwise_cons.mpr ⟨hnow, h.recent⟩
  case stamp_le =>
    exact List.forall_mem_cons.mpr ⟨Nat.le_refl _, fun e he => Nat.le_of_lt (hnow e he)⟩
  case entries_eq =>
    show (key, extent) :: l.entries = _
    rw [h.entries_eq, List.map_cons]
  case bound_eq => exact h.bound_eq
  case length_le => exact hroom
  case bound_pos => exact h.bound_pos

/-- The key that is evicted is the last in the list. -/
theorem evict (h : Mirrors x l es) (hnonempty : es ≠ []) :
    x.evict.1 = l.entries.getLast?.map (·.1) ∧ l.entries.getLast?.isSome = true ∧
      Mirrors x.evict.2 { l with entries := l.entries.dropLast } es.dropLast ∧
      x.evict.2.clock = x.clock ∧ x.evict.2.capacity = x.capacity ∧
      x.evict.2.evictions = x.evictions + 1 ∧
      ∀ key, x.entries.get? key = none → x.evict.2.entries.get? key = none := by
  obtain ⟨init, last, rfl⟩ := (List.eq_nil_or_concat' es).resolve_left hnonempty
  have hleast : leastRecent? x.entries.toList = some last.1 := by
    show leastRecent? x.entries.entries = _
    rw [leastRecent?_eq h.perm h.recent, List.getLast?_concat, Option.map_some]
  have hlist : l.entries.getLast? = some (last.1, last.2.extent) := by
    rw [h.entries_eq, List.map_append, List.map_singleton, List.getLast?_concat]
  have hinit : (init ++ [last]).filter (·.1 ≠ last.1) = init := by
    have hnodup := h.nodup_keys
    rw [List.map_append, List.nodup_append] at hnodup
    rw [List.filter_append, List.filter_cons_of_neg (by simp), List.filter_nil, List.append_nil,
      List.filter_eq_self]
    intro e he
    have hne := hnodup.2.2 e.1 (List.mem_map_of_mem he) last.1 (by simp)
    simpa using hne
  unfold RecencyIndex.evict
  rw [hleast, hlist, List.dropLast_concat]
  refine ⟨rfl, rfl, ?_, rfl, rfl, rfl, fun key hkey => ?_⟩
  · constructor
    case sorted => exact SortedMap.sorted_erase h.sorted _
    case perm =>
      have hperm := h.perm_filter last.1
      rwa [hinit] at hperm
    case recent => exact (List.pairwise_append.mp h.recent).1
    case stamp_le => exact fun e he => h.stamp_le e (List.mem_append_left _ he)
    case entries_eq =>
      show l.entries.dropLast = _
      rw [h.entries_eq, List.map_append, List.map_singleton, List.dropLast_concat]
    case bound_eq => exact h.bound_eq
    case length_le =>
      have hle := h.length_le
      rw [List.length_append] at hle
      exact Nat.le_trans (Nat.le_add_right _ _) hle
    case bound_pos => exact h.bound_pos
  · show (x.entries.erase last.1).get? key = none
    rw [SortedMap.get?_erase, hkey, ite_self]

end Mirrors

/-! ## Steps -/

theorem insert_known {x : RecencyIndex} {key : Bytes} {known : IndexEntry}
    (hknown : x.entries.get? key = some known) (extent : Extent) :
    x.insert key extent = (none,
      { x with
        entries := x.entries.modify key fun _ =>
          ⟨if known.extent.sequence.number ≤ extent.sequence.number then extent else known.extent,
            x.clock + 1⟩
        clock := x.clock + 1 }) := by
  unfold insert
  dsimp only
  rw [hknown]

theorem insert_room {x : RecencyIndex} {key : Bytes} (hmissing : x.entries.get? key = none)
    (hroom : x.size < x.capacity) (extent : Extent) :
    x.insert key extent = (none,
      { x with
        entries := x.entries.insert key ⟨extent, x.clock + 1⟩
        clock := x.clock + 1 }) := by
  unfold insert
  dsimp only
  rw [hmissing]
  dsimp only
  rw [if_neg]
  exact Nat.not_le.mpr hroom

theorem insert_full {x : RecencyIndex} {key : Bytes} (hmissing : x.entries.get? key = none)
    (hfull : x.capacity ≤ x.size) (extent : Extent) :
    x.insert key extent =
      let (evicted, y) := { x with clock := x.clock + 1 }.evict
      (evicted, { y with entries := y.entries.insert key ⟨extent, y.clock⟩ }) := by
  unfold insert
  dsimp only
  rw [hmissing]
  dsimp only
  rw [if_pos]
  exact hfull

/-- What one command does to an index, besides its answer: the clock ticks once at most, a key is
lost only if it is evicted, and only a full index evicts. -/
structure Turn (x : RecencyIndex) (es : List (Bytes × IndexEntry)) (c : Command) (answer : Answer)
    (x' : RecencyIndex) (l' : RecencyList) (es' : List (Bytes × IndexEntry)) : Prop
    extends Mirrors x' l' es' where
  clock_le : x'.clock ≤ x.clock + 1
  capacity_eq : x'.capacity = x.capacity
  evictions_eq : x'.evictions = x.evictions + answer.isEviction.toNat
  length_mono : es.length ≤ es'.length
  full : answer.isEviction = true → es'.length = x.capacity
  kept : answer.isEviction = false → ∀ key ∈ es.map (·.1), key ∈ es'.map (·.1)
  inserted : ∀ key extent, c = .insert key extent → key ∈ es'.map (·.1)

namespace Mirrors

variable {x : RecencyIndex} {l : RecencyList} {es : List (Bytes × IndexEntry)}

/-- A command that changes nothing. -/
theorem rest (h : Mirrors x l es) {c : Command} {answer : Answer}
    (hc : ∀ key extent, c ≠ .insert key extent) (hanswer : answer.isEviction = false) :
    Turn x es c answer x l es where
  toMirrors := h
  clock_le := Nat.le_succ _
  capacity_eq := rfl
  evictions_eq := by rw [hanswer]; rfl
  length_mono := Nat.le_refl _
  full hevicted := by rw [hanswer] at hevicted; cases hevicted
  kept _ _ hkey := hkey
  inserted key extent heq := absurd heq (hc key extent)

/-- A command that uses a key that is there. -/
theorem turn_use (h : Mirrors x l es) {key : Bytes} {known : IndexEntry}
    (hknown : x.entries.get? key = some known) (extent : Extent) {f : IndexEntry → IndexEntry}
    (hf : f known = ⟨extent, x.clock + 1⟩) {c : Command} {answer : Answer}
    (hc : ∀ key' extent', c = .insert key' extent' → key' = key)
    (hanswer : answer.isEviction = false) :
    Turn x es c answer { x with entries := x.entries.modify key f, clock := x.clock + 1 }
      (l.use key extent) ((key, ⟨extent, x.clock + 1⟩) :: es.filter (·.1 ≠ key)) := by
  obtain ⟨hmirrors, hlength⟩ := h.use hknown (Nat.lt_succ_self _) extent hf
  constructor
  case toMirrors => exact hmirrors
  case clock_le => exact Nat.le_refl _
  case capacity_eq => rfl
  case evictions_eq =>
    rw [hanswer]
    rfl
  case length_mono => exact Nat.le_of_eq hlength.symm
  case full =>
    intro hevicted
    rw [hanswer] at hevicted
    cases hevicted
  case kept =>
    rintro - key' hkey'
    obtain ⟨e, he, rfl⟩ := List.mem_map.mp hkey'
    rw [List.map_cons, List.mem_cons]
    by_cases hsame : e.1 = key
    · exact .inl hsame
    · exact .inr (List.mem_map_of_mem (List.mem_filter.mpr ⟨he, decide_eq_true hsame⟩))
  case inserted =>
    rintro key' extent' heq
    rw [hc key' extent' heq]
    exact List.mem_cons_self

theorem get (h : Mirrors x l es) (key : Bytes) :
    (x.get key).1 = (l.get key).1 ∧
      ∃ es', Turn x es (.get key) (.found (x.get key).1) (x.get key).2 (l.get key).2 es' := by
  unfold RecencyIndex.get RecencyList.get
  rw [h.find?_eq]
  cases hknown : x.entries.get? key with
  | none => exact ⟨rfl, es, h.rest (by simp) rfl⟩
  | some known => exact ⟨rfl, _, h.turn_use hknown known.extent rfl (by simp) rfl⟩

theorem tick (h : Mirrors x l es) : Mirrors { x with clock := x.clock + 1 } l es :=
  { h with stamp_le := fun e he => Nat.le_succ_of_le (h.stamp_le e he) }

/-- A new key for which there is room. -/
theorem turn_room (h : Mirrors x l es) {key : Bytes} (hmissing : x.entries.get? key = none)
    (hroom : es.length < l.bound) (extent : Extent) :
    Turn x es (.insert key extent) (.inserted none)
      { x with entries := x.entries.insert key ⟨extent, x.clock + 1⟩, clock := x.clock + 1 }
      { l with entries := (key, extent) :: l.entries } ((key, ⟨extent, x.clock + 1⟩) :: es) where
  toMirrors := h.insert_vacant hmissing hroom
    (fun e he => Nat.lt_succ_of_le (h.stamp_le e he)) extent
  clock_le := Nat.le_refl _
  capacity_eq := rfl
  evictions_eq := rfl
  length_mono := Nat.le_succ _
  full := by rintro ⟨⟩
  kept _ _ hkey := List.mem_cons_of_mem _ hkey
  inserted := by
    rintro key' extent' ⟨⟩
    exact List.mem_cons_self

/-- A new key for which the last one has to go. -/
theorem turn_evict (h : Mirrors x l es) {key : Bytes} (hmissing : x.entries.get? key = none)
    (hfull : l.bound ≤ es.length) (extent : Extent) :
    (x.insert key extent).1 = l.entries.getLast?.map (·.1) ∧
      Turn x es (.insert key extent) (.inserted (x.insert key extent).1) (x.insert key extent).2
        { l with entries := (key, extent) :: l.entries.dropLast }
        ((key, ⟨extent, x.clock + 1⟩) :: es.dropLast) := by
  have hpos := h.bound_pos
  have hle := h.length_le
  have hnonempty : es ≠ [] := by
    rintro rfl
    exact absurd hfull (Nat.not_le.mpr hpos)
  obtain ⟨hvictim, hsome, hevicted, hclock, hcapacity, hevictions, hgone⟩ :=
    h.tick.evict hnonempty
  have hlength : es.dropLast.length + 1 = l.bound := by
    rw [List.length_dropLast]
    omega
  have hinserted := hevicted.insert_vacant (hgone key hmissing) (Nat.le_of_eq hlength)
    (fun e he => Nat.lt_succ_of_le (h.stamp_le e (List.dropLast_subset es he))) extent
  have hout : Answer.isEviction (.inserted (l.entries.getLast?.map (·.1))) = true := by
    rw [Answer.isEviction, Option.isSome_map, hsome]
  rw [insert_full hmissing (by rwa [h.bound_eq, h.size_eq])]
  dsimp only
  rw [hvictim, hclock]
  refine ⟨rfl, ?_⟩
  constructor
  case toMirrors => exact hinserted
  case clock_le => exact Nat.le_refl _
  case capacity_eq => exact hcapacity
  case evictions_eq =>
    rw [hout]
    exact hevictions
  case length_mono =>
    rw [List.length_cons]
    omega
  case full =>
    rintro -
    rw [List.length_cons, hlength, h.bound_eq]
  case kept =>
    intro hnone
    rw [hout] at hnone
    cases hnone
  case inserted =>
    rintro key' extent' ⟨⟩
    exact List.mem_cons_self

theorem insert (h : Mirrors x l es) (key : Bytes) (extent : Extent) :
    (x.insert key extent).1 = (l.insert key extent).1 ∧
      ∃ es', Turn x es (.insert key extent) (.inserted (x.insert key extent).1)
        (x.insert key extent).2 (l.insert key extent).2 es' := by
  unfold RecencyList.insert
  rw [h.find?_eq, h.length_entries]
  cases hknown : x.entries.get? key with
  | some known =>
    rw [insert_known hknown]
    exact ⟨rfl, _, h.turn_use hknown _ rfl (by simp) rfl⟩
  | none =>
    dsimp only [Option.map_none]
    by_cases hfull : l.bound ≤ es.length
    · rw [if_pos hfull]
      obtain ⟨hvictim, hturn⟩ := h.turn_evict hknown hfull extent
      exact ⟨hvictim, _, hturn⟩
    · have hroom := Nat.lt_of_not_le hfull
      rw [if_neg hfull, insert_room hknown (by rwa [h.bound_eq, h.size_eq])]
      exact ⟨rfl, _, h.turn_room hknown hroom extent⟩

theorem apply (h : Mirrors x l es) (c : Command) :
    (x.apply c).1 = (l.apply c).1 ∧
      ∃ es', Turn x es c (x.apply c).1 (x.apply c).2 (l.apply c).2 es' := by
  cases c with
  | insert key extent =>
    obtain ⟨hanswer, hturn⟩ := h.insert key extent
    exact ⟨congrArg Answer.inserted hanswer, hturn⟩
  | get key =>
    obtain ⟨hanswer, hturn⟩ := h.get key
    exact ⟨congrArg Answer.found hanswer, hturn⟩
  | contains key =>
    exact ⟨congrArg Answer.membership (h.contains_eq key), es, h.rest (by simp) rfl⟩

end Mirrors

/-! ## Runs from the empty index -/

/-- What holds of an index and of a list after the same commands, given the answers so far. -/
structure History (capacity : Nat) (commands : List Command) (answers : List Answer)
    (x : RecencyIndex) (l : RecencyList) (es : List (Bytes × IndexEntry)) : Prop
    extends Mirrors x l es where
  capacity_eq : x.capacity = max capacity 1
  clock_le : x.clock ≤ commands.length
  evictions_eq : x.evictions = answers.countP Answer.isEviction
  full : 0 < x.evictions → es.length = x.capacity
  whole : x.evictions = 0 → ∀ key extent, .insert key extent ∈ commands → key ∈ es.map (·.1)

theorem history_ofCapacity (capacity : Nat) :
    History capacity [] [] (ofCapacity capacity) (.ofCapacity capacity) [] where
  toMirrors := mirrors_ofCapacity capacity
  capacity_eq := rfl
  clock_le := Nat.le_refl _
  evictions_eq := rfl
  full hpos := absurd hpos (Nat.lt_irrefl 0)
  whole _ _ _ hmem := by cases hmem

namespace History

variable {capacity : Nat} {commands : List Command} {answers : List Answer} {x : RecencyIndex}
  {l : RecencyList} {es : List (Bytes × IndexEntry)}

theorem turn (h : History capacity commands answers x l es) {c : Command} {answer : Answer}
    {x' : RecencyIndex} {l' : RecencyList} {es' : List (Bytes × IndexEntry)}
    (hturn : Turn x es c answer x' l' es') :
    History capacity (commands ++ [c]) (answers ++ [answer]) x' l' es' := by
  have hle := hturn.length_le
  rw [← hturn.bound_eq, hturn.capacity_eq] at hle
  constructor
  case toMirrors => exact hturn.toMirrors
  case capacity_eq => exact hturn.capacity_eq.trans h.capacity_eq
  case clock_le =>
    rw [List.length_append]
    exact Nat.le_trans hturn.clock_le (Nat.succ_le_succ h.clock_le)
  case evictions_eq =>
    rw [hturn.evictions_eq, h.evictions_eq, List.countP_append, List.countP_singleton]
    cases answer.isEviction <;> rfl
  case full =>
    intro hpos
    rw [hturn.capacity_eq]
    cases hout : answer.isEviction with
    | true => exact hturn.full hout
    | false =>
      rw [hturn.evictions_eq, hout] at hpos
      have hmono := hturn.length_mono
      have hfull := h.full hpos
      omega
  case whole =>
    intro hnone key extent hmem
    rw [hturn.evictions_eq] at hnone
    rcases List.mem_append.mp hmem with hmem | hmem
    · have hout : answer.isEviction = false := by
        cases hout : answer.isEviction with
        | true =>
          rw [hout] at hnone
          cases hnone
        | false => rfl
      exact hturn.kept hout key (h.whole (Nat.eq_zero_of_add_eq_zero_right hnone) key extent hmem)
    · exact hturn.inserted key extent (List.mem_singleton.mp hmem).symm

theorem run (h : History capacity commands answers x l es) (later : List Command) :
    (x.run later).1 = (l.run later).1 ∧
      ∃ es', History capacity (commands ++ later) (answers ++ (x.run later).1) (x.run later).2
        (l.run later).2 es' := by
  induction later generalizing commands answers x l es with
  | nil =>
    refine ⟨rfl, es, ?_⟩
    rw [List.append_nil, RecencyIndex.run, List.append_nil]
    exact h
  | cons c later ih =>
    obtain ⟨hanswer, es', hturn⟩ := h.toMirrors.apply c
    obtain ⟨hanswers, es'', hlater⟩ := ih (h.turn hturn)
    rw [List.append_assoc, List.append_assoc] at hlater
    exact ⟨congrArg₂ List.cons hanswer hanswers, es'', hlater⟩

end History

/-- The state of an index after some commands, next to that of a list with the same bound. -/
structure Exact (capacity : Nat) (commands : List Command) (answers : List Answer)
    (x : RecencyIndex) (l : RecencyList) : Prop where
  find?_eq : ∀ key, l.find? key = (x.entries.get? key).map (·.extent)
  /-- From the greatest stamp to the least, the entries are those of the list. -/
  recent : ∃ es, x.entries.entries.Perm es ∧ (es.Pairwise fun a b => b.2.stamp < a.2.stamp) ∧
    l.entries = es.map fun e => (e.1, e.2.extent)
  stamps_nodup : (x.entries.values.map (·.stamp)).Nodup
  stamp_le : ∀ entry ∈ x.entries.values, entry.stamp ≤ x.clock
  clock_le : x.clock ≤ commands.length
  size_le : x.size ≤ max capacity 1
  evictions_eq : x.evictions = answers.countP Answer.isEviction
  full : 0 < x.evictions → x.size = max capacity 1
  whole : x.isPartial = false → ∀ key extent, .insert key extent ∈ commands → x.contains key = true
  keys_ascend : x.keys.Pairwise (compare · · = .lt)
  mem_keys : ∀ key, key ∈ x.keys ↔ x.contains key = true
  miss : ∀ key, x.contains key = false → x.get key = (none, x)

theorem History.exact {capacity : Nat} {commands : List Command} {answers : List Answer}
    {x : RecencyIndex} {l : RecencyList} {es : List (Bytes × IndexEntry)}
    (h : History capacity commands answers x l es) : Exact capacity commands answers x l := by
  have hmem : ∀ key, key ∈ x.keys ↔ x.contains key = true := by
    intro key
    rw [Log.contains_index, Option.isSome_iff_ne_none, ne_eq, SortedMap.get?_eq_none_iff, not_not]
    rfl
  constructor
  case find?_eq => exact h.find?_eq
  case recent => exact ⟨es, h.perm, h.recent, h.entries_eq⟩
  case stamps_nodup =>
    have hstamps : (es.map fun e => e.2.stamp).Nodup :=
      List.pairwise_map.mpr (h.recent.imp fun hlt => Nat.ne_of_gt hlt)
    rw [SortedMap.values, List.map_map]
    exact (h.perm.map fun e => e.2.stamp).nodup_iff.mpr hstamps
  case stamp_le =>
    intro entry hentry
    obtain ⟨e, he, rfl⟩ := List.mem_map.mp hentry
    exact h.stamp_le e (h.perm.mem_iff.mp he)
  case clock_le => exact h.clock_le
  case size_le =>
    rw [h.size_eq, ← h.capacity_eq, h.bound_eq]
    exact h.length_le
  case evictions_eq => exact h.evictions_eq
  case full =>
    intro hpos
    rw [h.size_eq, h.full hpos, h.capacity_eq]
  case whole =>
    intro hpartial key extent hinsert
    have hnone : x.evictions = 0 := by simpa [isPartial] using hpartial
    rw [← hmem]
    exact (h.perm.map (·.1)).mem_iff.mpr (h.whole hnone key extent hinsert)
  case keys_ascend => exact List.pairwise_map.mpr h.sorted
  case mem_keys => exact hmem
  case miss =>
    intro key hmiss
    rw [Log.contains_index, Option.isSome_eq_false_iff, Option.isNone_iff_eq_none] at hmiss
    unfold RecencyIndex.get
    rw [hmiss]

/-- Whatever an index is asked from the start on, it answers as the list does. -/
theorem run_exact (capacity : Nat) (commands : List Command) :
    ((ofCapacity capacity).run commands).1 = ((RecencyList.ofCapacity capacity).run commands).1 ∧
      Exact capacity commands ((ofCapacity capacity).run commands).1
        ((ofCapacity capacity).run commands).2
        ((RecencyList.ofCapacity capacity).run commands).2 := by
  obtain ⟨hanswers, es, hhistory⟩ := (history_ofCapacity capacity).run commands
  exact ⟨hanswers, hhistory.exact⟩

end RecencyIndex

end Dataflow

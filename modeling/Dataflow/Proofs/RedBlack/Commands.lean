import Dataflow.Error
import Dataflow.Proofs.RedBlack.Refinement
import Dataflow.Text.Caseless

/-!
# Runs of commands on red-black trees

A tree that is built from a list of entries and then given any commands answers all of them as the
sorted map does, and its arena stays sound.

* `Command`, `Answer`: the calls on a tree or a map, and what they give back.
* `Tree.run`, `SortedMap.run`: runs of commands.
* `Tree.Represents.apply`, `Tree.Represents.run`: a step and a run keep what the tree stands for.
* `Tree.run_answers_eq`: the answers are those of the map.
* `Tree.run_sound`: the arena is sound.
-/

namespace Dataflow.RedBlack

open Std

/-! ## Commands -/

/-- A call on a map. -/
inductive Command (K V : Type)
  | insert (k : K) (v : V)
  /-- Insertion that asks for room first. A refusal has a wording. -/
  | tryInsert (refusal : Option String) (k : K) (v : V)
  /-- The value of a key is changed in place. -/
  | modify (k : K) (f : V → V)
  | remove (k : K)
  | removeEntry (k : K)
  | clear
  | get (k : K)
  | getEntry (k : K)
  | contains (k : K)
  | min
  | max
  | size
  | isEmpty
  | entries
  | keys
  | values

/-- What a call gives back. -/
inductive Answer (K V : Type)
  | done
  | value (v : Option V)
  | entry (e : Option (K × V))
  | truth (b : Bool)
  | count (n : Nat)
  | entries (es : List (K × V))
  | keys (ks : List K)
  | values (vs : List V)
  | failed (e : Error)
  deriving DecidableEq

/-- The answers to some commands, and the state in the end. -/
def Command.run {K V S : Type} (apply : S → Command K V → Answer K V × S) (s : S) :
    List (Command K V) → List (Answer K V) × S
  | [] => ([], s)
  | c :: rest =>
    let (answer, s) := apply s c
    let (answers, s) := Command.run apply s rest
    (answer :: answers, s)

end Dataflow.RedBlack

namespace Dataflow.SortedMap

open RedBlack (Command Answer)

variable {K V : Type} [Ord K]

/-- The map of a list of entries, inserted in their order. -/
def ofList (entries : List (K × V)) : SortedMap K V :=
  entries.foldl (fun m e => m.insert e.1 e.2) empty

/-- A call on a sorted map. What was there before is given back. -/
def apply (m : SortedMap K V) : Command K V → Answer K V × SortedMap K V
  | .insert k v | .tryInsert none k v => (.value (m.get? k), m.insert k v)
  | .tryInsert (some text) _ _ => (.failed (.outOfMemory (.described text)), m)
  | .modify k f => (.value ((m.get? k).map f), m.modify k f)
  | .remove k => (.value (m.get? k), m.erase k)
  | .removeEntry k => (.entry (m.find? k), m.erase k)
  | .clear => (.done, empty)
  | .get k => (.value (m.get? k), m)
  | .getEntry k => (.entry (m.find? k), m)
  | .contains k => (.truth (m.contains k), m)
  | .min => (.entry m.min?, m)
  | .max => (.entry m.max?, m)
  | .size => (.count m.size, m)
  | .isEmpty => (.truth m.isEmpty, m)
  | .entries => (.entries m.toList, m)
  | .keys => (.keys m.keys, m)
  | .values => (.values m.values, m)

/-- A run of calls on a sorted map. -/
def run (m : SortedMap K V) (commands : List (Command K V)) : List (Answer K V) × SortedMap K V :=
  Command.run apply m commands

end Dataflow.SortedMap

namespace Dataflow.RedBlack.Tree

open Std

variable {K V : Type} [Ord K] {t : Tree K V} {m : SortedMap K V}

/-- A call on a tree. -/
def apply (t : Tree K V) : Command K V → Answer K V × Tree K V
  | .insert k v | .tryInsert none k v =>
    let (old, t) := t.insert k v
    (.value old, t)
  | .tryInsert (some text) _ _ => (.failed (.outOfMemory (.described text)), t)
  | .modify k f =>
    let (v, t) := t.modify k f
    (.value v, t)
  | .remove k =>
    let (e, t) := t.erase k
    (.value (e.map (·.2)), t)
  | .removeEntry k =>
    let (e, t) := t.erase k
    (.entry e, t)
  | .clear => (.done, empty)
  | .get k => (.value (t.get? k), t)
  | .getEntry k => (.entry (t.find? k), t)
  | .contains k => (.truth (t.contains k), t)
  | .min => (.entry t.min?, t)
  | .max => (.entry t.max?, t)
  | .size => (.count t.size, t)
  | .isEmpty => (.truth t.isEmpty, t)
  | .entries => (.entries t.toList, t)
  | .keys => (.keys t.keys, t)
  | .values => (.values t.values, t)

/-- A run of calls on a tree. -/
def run (t : Tree K V) (commands : List (Command K V)) : List (Answer K V) × Tree K V :=
  Command.run apply t commands

/-! ## Refinement -/

section

variable [TransOrd K]

/-- A step gives the answer of the map and leads to a tree that stands for the next map. -/
theorem Represents.apply (h : t.Represents m) (c : Command K V) :
    (t.apply c).1 = (m.apply c).1 ∧ (t.apply c).2.Represents (m.apply c).2 := by
  cases c with
  | insert k v =>
    obtain ⟨hold, h'⟩ := h.insert k v
    exact ⟨congrArg Answer.value hold, h'⟩
  | tryInsert refusal k v =>
    cases refusal with
    | none =>
      obtain ⟨hold, h'⟩ := h.insert k v
      exact ⟨congrArg Answer.value hold, h'⟩
    | some text => exact ⟨rfl, h⟩
  | modify k f =>
    obtain ⟨hnew, h'⟩ := h.modify k f
    exact ⟨congrArg Answer.value hnew, h'⟩
  | remove k =>
    obtain ⟨hold, h'⟩ := h.erase k
    exact ⟨congrArg Answer.value (congrArg (Option.map Prod.snd) hold), h'⟩
  | removeEntry k =>
    obtain ⟨hold, h'⟩ := h.erase k
    exact ⟨congrArg Answer.entry hold, h'⟩
  | clear => exact ⟨rfl, represents_empty⟩
  | get k => exact ⟨congrArg Answer.value (h.get?_eq k), h⟩
  | getEntry k => exact ⟨congrArg Answer.entry (h.find?_eq k), h⟩
  | contains k => exact ⟨congrArg Answer.truth (h.contains_eq k), h⟩
  | min => exact ⟨congrArg Answer.entry h.min?_eq, h⟩
  | max => exact ⟨congrArg Answer.entry h.max?_eq, h⟩
  | size => exact ⟨congrArg Answer.count h.size_eq, h⟩
  | isEmpty => exact ⟨congrArg Answer.truth h.isEmpty_eq, h⟩
  | entries => exact ⟨congrArg Answer.entries h.toList_eq, h⟩
  | keys => exact ⟨congrArg Answer.keys h.keys_eq, h⟩
  | values => exact ⟨congrArg Answer.values h.values_eq, h⟩

theorem Represents.run (h : t.Represents m) (commands : List (Command K V)) :
    (t.run commands).1 = (m.run commands).1 ∧ (t.run commands).2.Represents (m.run commands).2 := by
  induction commands generalizing t m with
  | nil => exact ⟨rfl, h⟩
  | cons c rest ih =>
    obtain ⟨hanswer, h'⟩ := h.apply c
    obtain ⟨hanswers, h''⟩ := ih h'
    exact ⟨congrArg₂ List.cons hanswer hanswers, h''⟩

theorem represents_ofList (entries : List (K × V)) :
    (ofList entries).Represents (SortedMap.ofList entries) := by
  suffices hfold : ∀ (t : Tree K V) (m : SortedMap K V), t.Represents m →
      (entries.foldl (fun t e => (t.insert e.1 e.2).2) t).Represents
        (entries.foldl (fun m e => m.insert e.1 e.2) m) from
    hfold _ _ represents_empty
  induction entries with
  | nil => exact fun _ _ h => h
  | cons e rest ih => exact fun t m h => ih _ _ (h.insert e.1 e.2).2

/-- A tree answers all commands as a map does whose entries ascend strictly. -/
theorem run_answers_eq (entries : List (K × V)) (commands : List (Command K V)) :
    ((ofList entries).run commands).1 = ((SortedMap.ofList entries).run commands).1 ∧
      ((SortedMap.ofList entries).run commands).2.Sorted := by
  obtain ⟨hanswers, h⟩ := (represents_ofList entries).run commands
  exact ⟨hanswers, h.sorted⟩

/-- A key that is given again in another spelling keeps the one it has. -/
theorem run_answers_eq_respelled :
    ((ofList [(CaselessText.mk "a", 1)]).run
      [.insert ⟨"A"⟩ 2, .tryInsert (some "no room") ⟨"A"⟩ 3, .entries, .removeEntry ⟨"A"⟩]).1 =
      [.value (some 1), .failed (.outOfMemory (.described "no room")), .entries [(⟨"a"⟩, 2)],
        .entry (some (⟨"a"⟩, 2))] := by
  -- The keys are variables here, so that no comparison of texts is computed.
  have hmap : ∀ {K : Type} [Ord K] (k k' : K), compare k' k = .eq →
      ((SortedMap.ofList [(k, 1)]).run
        [.insert k' 2, .tryInsert (some "no room") k' 3, .entries, .removeEntry k']).1 =
        [.value (some 1), .failed (.outOfMemory (.described "no room")), .entries [(k, 2)],
          .entry (some (k, 2))] := by
    intro K _ k k' hcompare
    simp [SortedMap.run, Command.run, SortedMap.apply, SortedMap.ofList, SortedMap.empty,
      SortedMap.insert, SortedMap.insertEntry, SortedMap.get?, SortedMap.find?, SortedMap.toList,
      hcompare]
  have hfolded : (CaselessText.mk "A").folded = (CaselessText.mk "a").folded := by
    apply String.toList_inj.mp
    simp [CaselessText.folded]
  refine (run_answers_eq _ _).1.trans (hmap _ _ ?_)
  rw [CaselessText.compare_eq, hfolded, ReflOrd.compare_self]

/-- The arena of a tree is sound after any commands, and the check says so. -/
theorem run_sound (entries : List (K × V)) (commands : List (Command K V)) :
    ∃ n s, ((ofList entries).run commands).2.Sound n s ∧
      ((ofList entries).run commands).2.check = .ok n := by
  obtain ⟨-, h⟩ := (represents_ofList entries).run commands
  obtain ⟨n, s, hs, -⟩ := h.exists_sound
  exact ⟨n, s, hs, hs.check⟩

/-- The root of this tree has two children. It goes away with its key, and the node in the last slot
moves into the slot that it leaves. -/
theorem run_sound_root_removed :
    let t : Tree Nat Char := ofList [(2, 'b'), (1, 'a'), (3, 'c'), (4, 'd')]
    let t' := (t.run [.remove 2]).2
    (t.size = 4 ∧ t.root = some 0 ∧ (t.node? 0).map Node.entry = some (2, 'b')) ∧
      (t'.size = 3 ∧ t'.contains 2 = false ∧ (t'.node? 0).map Node.entry = some (4, 'd')) ∧
      ∃ s, t'.Sound 3 s := by
  intro t t'
  obtain ⟨n, s, hs, hcheck⟩ :=
    run_sound [(2, 'b'), (1, 'a'), (3, 'c'), (4, 'd')] [.remove 2]
  obtain rfl : n = 3 := by
    have hcomputed : t'.check = .ok 3 := by decide
    exact Except.ok.inj (hcheck.symm.trans hcomputed)
  exact ⟨by decide, by decide, s, hs⟩

end

end Dataflow.RedBlack.Tree

import Dataflow.Proofs.Log.Outcomes
import Dataflow.Proofs.Log.Replay

/-!
# A record that is kept

A record that a log has acknowledged is found again as long as nobody writes its key: through other
writes, through evictions and scans, through later openings, and, if it was persistent, through
crashes and losses of power. The log on which it was written may have been opened over any bytes and
used in any way before, on a store of which any call may have failed.

* `RecencyIndex.Knows`: what an index knows of the key.
* `Log.Orderly`: what holds of every log before the record is written.
* `Log.Retained`: what holds of every log afterwards.
* `Session.Turn`, `Session.Turn.Spares`: what happens to the log, and that it leaves the key alone.
* `Log.Retained.turns`, `Log.Retained.lookup`: the record is kept, and found.
-/

namespace Dataflow

/-! ## What an index knows of a key -/

namespace RecencyIndex

/-- An index knows where the record of a key lies, or it has lost the key and says that it may have
lost some. -/
def Knows (x : RecencyIndex) (key : Bytes) (extent : Extent) : Prop :=
  (x.entries.get? key).map (·.extent) = some extent ∨
    x.entries.get? key = none ∧ x.isPartial = true

/-- No extent in an index has a greater sequence number. -/
def Within (x : RecencyIndex) (bound : Nat) : Prop :=
  ∀ key extent, (x.entries.get? key).map (·.extent) = some extent → extent.sequence.number ≤ bound

variable {x : RecencyIndex} {key : Bytes} {extent : Extent} {bound : Nat}

theorem Knows.get (h : x.Knows key extent) (key' : Bytes) : (x.get key').2.Knows key extent := by
  have hextent := x.extent_get key' key
  rcases h with hknown | ⟨hlost, hpartial⟩
  · exact .inl (hextent.trans hknown)
  · rw [hlost, Option.map_none, Option.map_eq_none_iff] at hextent
    exact .inr ⟨hextent, (x.isPartial_get key').trans hpartial⟩

theorem Knows.insert (h : x.Knows key extent) {key' : Bytes} (hne : key' ≠ key)
    (extent' : Extent) : (x.insert key' extent').2.Knows key extent := by
  rcases x.get?_insert_of_ne (Ne.symm hne) extent' with
    ⟨hsame, hpartial⟩ | ⟨hgone | hsame, hpartial⟩
  · rw [Knows, hsame, hpartial]
    exact h
  · exact .inr ⟨hgone, hpartial⟩
  · rw [Knows, hsame, hpartial]
    exact h.imp_right fun hlost => ⟨hlost.1, rfl⟩

/-- An index gets to know a record that is inserted, unless it knows a newer one. -/
theorem knows_insert_self
    (hle : ∀ known, (x.entries.get? key).map (·.extent) = some known →
      known.sequence.number ≤ extent.sequence.number) :
    (x.insert key extent).2.Knows key extent := by
  refine .inl ?_
  rw [x.get?_insert_self]
  cases hknown : x.entries.get? key with
  | none => rfl
  | some known =>
    have hle := hle known.extent (congrArg (Option.map (·.extent)) hknown)
    simp [hle]

theorem Within.mono {bound' : Nat} (h : x.Within bound) (hle : bound ≤ bound') :
    x.Within bound' :=
  fun key extent hextent => Nat.le_trans (h key extent hextent) hle

theorem Within.get (h : x.Within bound) (key : Bytes) : (x.get key).2.Within bound :=
  fun key' extent hextent => h key' extent ((x.extent_get key key').symm.trans hextent)

theorem Within.insert (h : x.Within bound) (key : Bytes)
    (hextent : extent.sequence.number ≤ bound) : (x.insert key extent).2.Within bound := by
  intro key' extent' hknown
  rcases extent_of_insert hknown with ⟨rfl, rfl⟩ | hknown
  · exact hextent
  · exact h key' extent' hknown

end RecencyIndex

namespace Log

variable {σ : Type} {Holds Calm Secure : σ → Bytes → Prop} {log log' : Log σ} {rs : List Record}

/-! ## Before the record is written -/

/-- A store holds the frames of some records, in any order, and the log is ahead of them all. -/
structure Orderly (Holds : σ → Bytes → Prop) (log : Log σ) (rs : List Record) : Prop where
  holds : Holds log.store (Record.logBytes rs)
  fits : ∀ r ∈ rs, r.Fits
  sequence_fits : log.nextSequence.number ≤ SequenceNumber.maxNumber
  sequence_le : ∀ r ∈ rs, r.sequence.number ≤ log.nextSequence.number
  within : log.index.Within log.nextSequence.number

theorem Orderly.of_undisturbed (h : log.Orderly Holds rs)
    (hlog : log.Undisturbed (fun s => Holds s (Record.logBytes rs)) log')
    (hindex : log'.index.Within log.nextSequence.number) : log'.Orderly Holds rs where
  holds := hlog.store h.holds
  fits := h.fits
  sequence_fits := hlog.sequence_eq ▸ h.sequence_fits
  sequence_le := hlog.sequence_eq ▸ h.sequence_le
  within := hlog.sequence_eq ▸ hindex

variable [Store σ]

/-- What a scan finds is a frame of the key. -/
theorem scan_found (laws : Store.ReadLaws Holds) (hs : Holds log.store (Record.logBytes rs))
    (hfits : ∀ r ∈ rs, r.Fits) {key : Bytes} {extent : Extent}
    (hscan : (log.scan key).1 = .ok (some extent)) :
    ∃ f ∈ PlacedFrame.layout 0 rs, f.frame.key = key ∧ f.extent = extent := by
  unfold Log.scan at hscan
  rcases hsurvey : Frame.survey log.store with ⟨⟨frames, stop⟩, s⟩
  rw [hsurvey] at hscan
  cases stop with
  | some stop => cases hscan
  | none =>
    have hfrom : Frame.surveyFrom (Record.logBytes rs).length log.store ([] : Bytes).length
        (Record.logBytes rs).length = (⟨frames, none⟩, s) := by
      rw [← laws.size_eq hs]
      exact hsurvey
    have hstore : ¬ Frame.StoppedByStore ⟨frames, none⟩ := by
      rintro ⟨offset, e, hstop⟩
      cases hstop
    obtain ⟨rs', tail, hbytes, hfits', -, hframes, -⟩ := Frame.surveyFrom_recoverable laws
      hs rfl (Nat.le_refl _) hfrom hstore
    obtain ⟨f, hf, hfound⟩ := exists_of_newest? (Except.ok.inj hscan)
    rw [show frames = _ from hframes] at hf
    obtain ⟨rest, rfl⟩ : rs' <+: rs :=
      (recoverable_logBytes hfits).prefix_of_run hfits' ⟨tail, hbytes.symm⟩
    refine ⟨f, ?_, hfound⟩
    rw [PlacedFrame.layout_append]
    exact List.mem_append_left _ hf

/-- What is found of a key stands in the index, or a scan finds it. -/
theorem find_found {key : Bytes} {extent : Extent}
    (hfind : (log.find key).1 = .ok (some extent)) :
    (log.index.entries.get? key).map (·.extent) = some extent ∨
      ({ log with scans := log.scans + 1 }.scan key).1 = .ok (some extent) := by
  unfold find at hfind
  split at hfind
  · rename_i found index hget
    have hfst := log.index.get_fst key
    rw [hget] at hfst
    cases hfind
    exact .inl hfst.symm
  · split at hfind
    · exact .inr hfind
    · cases hfind

/-- Finding a key uses the index, if the key is there. -/
theorem index_find (log : Log σ) (key : Bytes) :
    (log.find key).2.index = log.index ∨ (log.find key).2.index = (log.index.get key).2 := by
  unfold find
  split
  · rename_i hget
    rw [hget]
    exact .inr rfl
  · split
    · exact .inl (index_scan _ key)
    · exact .inl rfl

/-- A look-up may put the key that was found back into the index. -/
theorem index_lookup (log : Log σ) (key : Bytes) :
    (log.lookup key).2.index = log.index ∨
      ∃ log₁ result, { log with lookups := log.lookups + 1 }.find key = (result, log₁) ∧
        ((log.lookup key).2.index = log₁.index ∨ ∃ extent, result = .ok (some extent) ∧
          (log.lookup key).2.index = (log₁.index.insert key extent).2) := by
  rcases hfind : { log with lookups := log.lookups + 1 }.find key with ⟨result, log₁⟩
  unfold lookup
  dsimp only
  rw [hfind]
  split
  · exact .inl rfl
  · refine .inr ⟨log₁, result, rfl, ?_⟩
    cases result with
    | error e => exact .inl rfl
    | ok found =>
      cases found with
      | none => exact .inl rfl
      | some extent =>
        have hvalue : (log₁.valueAt extent).2.index = log₁.index := by
          unfold valueAt
          split <;> rfl
        dsimp only
        split
        · rename_i hread
          rw [hread] at hvalue
          exact .inl hvalue
        · rename_i hread
          rw [hread] at hvalue
          split
          · exact .inl hvalue
          · refine .inr ⟨extent, rfl, ?_⟩
            rw [← hvalue]

theorem Orderly.find (laws : Store.ReadLaws Holds) (h : log.Orderly Holds rs) {key : Bytes}
    {result : Except Error (Option Extent)} (hfind : log.find key = (result, log')) :
    log'.index.Within log.nextSequence.number ∧ ∀ extent, result = .ok (some extent) →
      extent.sequence.number ≤ log.nextSequence.number := by
  constructor
  · have hindex := log.index_find key
    rw [hfind] at hindex
    rcases hindex with hsame | hget
    · exact hsame ▸ h.within
    · exact hget ▸ h.within.get key
  · rintro extent rfl
    rcases find_found (congrArg Prod.fst hfind) with hknown | hscan
    · exact h.within key extent hknown
    · have hcounted : { log with scans := log.scans + 1 }.Orderly Holds rs := { h with }
      obtain ⟨f, hf, -, rfl⟩ := scan_found laws hcounted.holds hcounted.fits hscan
      obtain ⟨before, r, after, hsplit, rfl⟩ := PlacedFrame.mem_layout hf
      rw [r.extent_asFrame]
      exact h.sequence_le r (by simp [hsplit])

theorem Orderly.lookup (laws : Store.ReadLaws Holds) (h : log.Orderly Holds rs) (key : Bytes) :
    (log.lookup key).2.Orderly Holds rs := by
  refine h.of_undisturbed (lookup_undisturbed (laws.readAt_keeps _) log key) ?_
  have hcounted : { log with lookups := log.lookups + 1 }.Orderly Holds rs := { h with }
  rcases log.index_lookup key with hsame | ⟨log₁, result, hfind, hsame | ⟨extent, rfl, hinsert⟩⟩
  · rw [hsame]
    exact h.within
  · rw [hsame]
    exact (hcounted.find laws hfind).1
  · rw [hinsert]
    obtain ⟨hwithin, hextent⟩ := hcounted.find laws hfind
    exact hwithin.insert key (hextent extent rfl)

theorem Orderly.contains (laws : Store.ReadLaws Holds) (h : log.Orderly Holds rs) (key : Bytes) :
    (log.contains key).2.Orderly Holds rs := by
  refine h.of_undisturbed (contains_undisturbed (laws.readAt_keeps _) log key) ?_
  rcases hfind : log.find key with ⟨result, log₁⟩
  have hwithin := (h.find laws hfind).1
  unfold Log.contains
  rw [hfind]
  split
  · exact h.within
  · cases result <;> exact hwithin

theorem Orderly.write (laws : Store.SecureLaws Holds Secure) (h : log.Orderly Holds rs)
    (key value : Bytes) (durability : Durability) (allowReplace : Bool) :
    ∃ rs', (log.write key value durability allowReplace).2.Orderly Holds rs' := by
  have hnext := le_next h.sequence_fits
  have happended : ∀ r ∈ rs ++ [⟨key, value, durability, allowReplace, log.nextSequence⟩],
      r.sequence.number ≤ log.nextSequence.next.number :=
    List.forall_mem_append.mpr ⟨fun r hr => Nat.le_trans (h.sequence_le r hr) hnext,
      List.forall_mem_singleton.mpr hnext⟩
  have hfits {record : Record} (hrecord : record.Fits) : ∀ r ∈ rs ++ [record], r.Fits :=
    List.forall_mem_append.mpr ⟨h.fits, List.forall_mem_singleton.mpr hrecord⟩
  rcases write_cases laws h.holds h.sequence_fits key value durability allowReplace with
    ⟨log', hwrite, hcounted⟩ | ⟨e, log', hwrite, hrefused⟩
  · rw [hwrite]
    refine ⟨_, hcounted.holds, hfits hcounted.fits, ?_, ?_, ?_⟩
    · rw [hcounted.sequence_eq]
      exact next_fits _
    · rw [hcounted.sequence_eq]
      exact happended
    · rw [hcounted.sequence_eq, hcounted.index_eq]
      exact (h.within.mono hnext).insert _ hnext
  · rw [hwrite]
    have hle := hrefused.sequence_le h.sequence_fits
    have hsequence := hrefused.sequence_fits h.sequence_fits
    have hwithin : log'.index.Within log'.nextSequence.number := by
      rw [hrefused.index_eq]
      exact h.within.mono hle
    rcases hrefused.left with hleft | ⟨hrecord, hsame, hleft⟩
    · exact ⟨rs, hleft, h.fits, hsequence, fun r hr => Nat.le_trans (h.sequence_le r hr) hle,
        hwithin⟩
    · exact ⟨_, hleft, hfits hrecord, hsequence, hsame ▸ happended, hwithin⟩

theorem Orderly.call (laws : Store.SecureLaws Holds Secure) (h : log.Orderly Holds rs) (c : Call) :
    ∃ rs', (log.call c).2.Orderly Holds rs' := by
  by_cases hbarrier : c = .flush ∨ c = .sync
  · obtain ⟨s', hkept, hsame | ⟨hemptied, -⟩⟩ := barrier_call_cases laws h.holds hbarrier
    · rw [hsame]
      exact ⟨rs, { h with holds := hkept.holds }⟩
    · rw [hemptied]
      exact ⟨rs, { h with holds := hkept.holds }⟩
  cases c with
  | write key value durability allowReplace => exact h.write laws key value durability allowReplace
  | lookup key => exact ⟨rs, h.lookup laws.toReadLaws key⟩
  | contains key => exact ⟨rs, h.contains laws.toReadLaws key⟩
  | flush | sync => simp at hbarrier

theorem Orderly.run (laws : Store.SecureLaws Holds Secure) (h : log.Orderly Holds rs)
    (calls : List Call) : ∃ rs', (log.run calls).2.Orderly Holds rs' := by
  induction calls generalizing log rs with
  | nil => exact ⟨rs, h⟩
  | cons c calls ih =>
    obtain ⟨rs', h'⟩ := h.call laws c
    exact ih h'

/-- An opened log is orderly, over whatever bytes it was opened. -/
theorem orderly_open (laws : Store.SecureLaws Holds Secure) {settings : LogSettings} {s : σ}
    {image : Bytes} (hs : Holds s image) (hopen : Log.open settings s = .ok log) :
    ∃ rs, log.Orderly Holds rs := by
  obtain ⟨rs, hrecovered⟩ := open_recovered laws.toLaws hs hopen
  have hfits := hrecovered.longestRun.fits
  have hlast : ∀ r ∈ rs, r.sequence.number ≤
      (lastSequence (PlacedFrame.layout 0 rs)).next.number := fun r hr =>
    Nat.le_trans (le_lastSequence r hr) (le_next (lastSequence_fits hfits))
  refine ⟨rs, hrecovered.holds, hfits, ?_, ?_, ?_⟩
  · rw [hrecovered.replays]
    exact next_fits _
  · rw [hrecovered.replays]
    exact hlast
  · rw [hrecovered.replays]
    intro key extent hextent
    obtain ⟨f, hf, -, rfl⟩ := (follows_replay _).known hextent
    obtain ⟨before, r, after, hsplit, rfl⟩ := PlacedFrame.mem_layout hf
    rw [r.extent_asFrame]
    exact hlast r (by simp [hsplit])

/-! ## After the record was written -/

/-- Where a record lies behind others. -/
def extentAfter (before : List Record) (r : Record) : Extent :=
  ⟨(Record.logBytes before).length, r.frame.length, r.sequence⟩

/-- A store holds a record, and no newer one of its key. It would outlive a loss if it is meant to
do so. -/
structure Retained (Calm Secure : σ → Bytes → Prop) (durability : Durability)
    (before : List Record) (r : Record) (log : Log σ) (after : List Record) : Prop
    extends Stored Calm log (before ++ r :: after) where
  before_le : ∀ r' ∈ before, r'.key = r.key → r'.sequence.number ≤ r.sequence.number
  after_ne : ∀ r' ∈ after, r'.key ≠ r.key
  knows : log.index.Knows r.key (extentAfter before r)
  secured : durability = .persist → Secure log.store (Record.logBytes (before ++ [r]))

variable {durability : Durability} {before after : List Record} {r : Record}

/-- A record that counts is retained from then on. -/
theorem Orderly.retained (laws : Store.SecureLaws Holds Secure) (h : log.Orderly Holds rs)
    {key value : Bytes} {allowReplace : Bool} {sequence : SequenceNumber}
    (hwrite : log.write key value durability allowReplace = (.ok sequence, log'))
    (hcalm : ∀ b, Holds log'.store b → Calm log'.store b) :
    Retained Calm Secure durability rs ⟨key, value, durability, allowReplace, sequence⟩ log'
      [] := by
  have hpoisoned : log.poisoned = false := by
    unfold Log.write at hwrite
    split at hwrite
    · cases hwrite
    · rename_i hpoisoned
      exact Bool.eq_false_iff.mpr hpoisoned
  rcases write_cases laws h.holds h.sequence_fits key value durability allowReplace with
    ⟨log₁, hcase, hcounted⟩ | ⟨e, log₁, hcase, -⟩
  · rw [hcase] at hwrite
    cases hwrite
    constructor
    case toStored =>
      refine ⟨hcalm _ hcounted.holds, ?_, ?_, hcounted.poisoned_eq.trans hpoisoned⟩
      · exact List.forall_mem_append.mpr ⟨h.fits, List.forall_mem_singleton.mpr hcounted.fits⟩
      · rw [hcounted.sequence_eq]
        exact next_fits _
    case before_le => exact fun r' hr' _ => h.sequence_le r' hr'
    case after_ne => simp
    case knows =>
      rw [hcounted.index_eq]
      exact RecencyIndex.knows_insert_self fun known hknown => h.within _ known hknown
    case secured =>
      rintro rfl
      exact hcounted.passed.sync rfl
  · rw [hcase] at hwrite
    cases hwrite

omit [Store σ] in
/-- The newest frame of the key is that of the record. -/
theorem newest?_of_ne (hbefore : ∀ r' ∈ before, r'.key = r.key →
      r'.sequence.number ≤ r.sequence.number) (hafter : ∀ r' ∈ after, r'.key ≠ r.key) :
    newest? r.key (PlacedFrame.layout 0 (before ++ r :: after)) = some (extentAfter before r) := by
  induction after using List.reverseRecOn with
  | nil =>
    rw [PlacedFrame.layout_concat, newest?_append_of_le r.key_asFrame, r.extent_asFrame]
    · rfl
    · intro best hbest
      obtain ⟨f, hf, hkey, rfl⟩ := exists_of_newest? hbest
      obtain ⟨before', r', after', hsplit, rfl⟩ := PlacedFrame.mem_layout hf
      rw [r'.extent_asFrame, r.extent_asFrame]
      exact hbefore r' (by simp [hsplit]) (r'.key_asFrame.symm.trans hkey)
  | append_singleton after a ih =>
    have hsplit : before ++ r :: (after ++ [a]) = before ++ r :: after ++ [a] := by simp
    have hne : a.asFrame.key ≠ r.key := by
      rw [a.key_asFrame]
      exact hafter a (by simp)
    rw [hsplit, PlacedFrame.layout_concat, newest?_append, if_neg hne]
    exact ih fun r' hr' => hafter r' (List.mem_append_left _ hr')

namespace Retained

omit [Store σ] in
theorem newest (h : Retained Calm Secure durability before r log after) :
    newest? r.key (PlacedFrame.layout 0 (before ++ r :: after)) = some (extentAfter before r) :=
  newest?_of_ne h.before_le h.after_ne

theorem secured_isPrefix (before after : List Record) (r : Record) :
    Record.logBytes (before ++ [r]) <+: Record.logBytes (before ++ r :: after) :=
  Record.logBytes_of_isPrefix ⟨after, by simp⟩

omit [Store σ] in
/-- Reads and barriers leave the record where it is. -/
theorem of_kept (h : Retained Calm Secure durability before r log after)
    (hkept : Kept Calm Secure (Record.logBytes (before ++ r :: after)) log.store log'.store)
    (hsequence : log'.nextSequence = log.nextSequence) (hpoisoned : log'.poisoned = log.poisoned)
    (hknows : log'.index.Knows r.key (extentAfter before r)) :
    Retained Calm Secure durability before r log' after where
  holds := hkept.holds
  fits := h.fits
  sequence_fits := hsequence ▸ h.sequence_fits
  unpoisoned := hpoisoned.trans h.unpoisoned
  before_le := h.before_le
  after_ne := h.after_ne
  knows := hknows
  secured hdurability :=
    hkept.secure _ (secured_isPrefix before after r) (h.secured hdurability)

omit [Store σ] in
theorem of_undisturbed (h : Retained Calm Secure durability before r log after)
    (hlog : log.Undisturbed
      (Kept Calm Secure (Record.logBytes (before ++ r :: after)) log.store) log')
    (hknows : log'.index.Knows r.key (extentAfter before r)) :
    Retained Calm Secure durability before r log' after :=
  h.of_kept (hlog.store (.refl h.holds)) hlog.sequence_eq hlog.poisoned_eq hknows

/-! ## Looking for the record -/

/-- The record is found where it lies, whether or not the index has lost it. -/
theorem find (readable : Store.Readable Calm)
    (h : Retained Calm Secure durability before r log after) :
    ∃ log', log.find r.key = (.ok (some (extentAfter before r)), log') ∧
      log'.index.Knows r.key (extentAfter before r) ∧
      log'.Stored Calm (before ++ r :: after) ∧
      (log.index.contains r.key = false → log'.index.entries.get? r.key = none) := by
  rcases hget : log.index.get r.key with ⟨found, index⟩
  have hfst := log.index.get_fst r.key
  have hknows := h.knows.get r.key
  rw [hget] at hfst hknows
  unfold Log.find
  rw [hget]
  rcases h.knows with hknown | ⟨hlost, hpartial⟩
  · rw [hknown] at hfst
    obtain rfl : found = some (extentAfter before r) := hfst
    refine ⟨_, rfl, hknows, { h.toStored with }, fun hmissing => ?_⟩
    rw [contains_index, ← Option.isSome_map (f := fun e : IndexEntry => e.extent), hknown]
      at hmissing
    cases hmissing
  · rw [hlost] at hfst
    obtain rfl : found = none := hfst
    have hcounted : { log with scans := log.scans + 1 }.Stored Calm (before ++ r :: after) :=
      { h.toStored with }
    obtain ⟨s', hscan, hs'⟩ := scan_stored readable hcounted r.key
    dsimp only
    rw [if_pos hpartial, hscan, h.newest]
    exact ⟨_, rfl, .inr ⟨hlost, hpartial⟩, hcounted.setStore hs', fun _ => hlost⟩

/-- A look-up of the key gives the value of the record. -/
theorem lookup (readable : Store.Readable Calm)
    (h : Retained Calm Secure durability before r log after) :
    ∃ log', log.lookup r.key = (.ok r.value, log') ∧
      log'.index.Knows r.key (extentAfter before r) := by
  have hcounted : Retained Calm Secure durability before r
      { log with lookups := log.lookups + 1 } after := { h with }
  obtain ⟨log₁, hfind, hknows, hstored, hlost⟩ := hcounted.find readable
  obtain ⟨s', hvalue, -⟩ := valueAt_stored readable hstored rfl
  have hvalue : log₁.valueAt (extentAfter before r) = (.ok r.value, { log₁ with store := s' }) :=
    hvalue
  unfold Log.lookup
  dsimp only
  rw [if_neg (by simp [h.unpoisoned]), hfind]
  dsimp only
  rw [hvalue]
  dsimp only
  split
  · exact ⟨_, rfl, hknows⟩
  · rename_i hmissing
    refine ⟨_, rfl, RecencyIndex.knows_insert_self fun known hknown => ?_⟩
    rw [hlost (Bool.eq_false_iff.mpr hmissing)] at hknown
    cases hknown

/-! ## Calls -/

/-- A look-up of any key keeps what the index knows of this one. -/
theorem knows_lookup (readable : Store.Readable Calm)
    (h : Retained Calm Secure durability before r log after) (key : Bytes) :
    (log.lookup key).2.index.Knows r.key (extentAfter before r) := by
  by_cases hkey : key = r.key
  · subst hkey
    obtain ⟨log', hlookup, hknows⟩ := h.lookup readable
    rwa [hlookup]
  · rcases log.index_lookup key with hsame | ⟨log₁, result, hfind, hcase⟩
    · rw [hsame]
      exact h.knows
    · have hknows : log₁.index.Knows r.key (extentAfter before r) := by
        have hindex := Log.index_find { log with lookups := log.lookups + 1 } key
        rw [hfind] at hindex
        rcases hindex with hsame | hget
        · exact hsame ▸ h.knows
        · exact hget ▸ h.knows.get key
      rcases hcase with hsame | ⟨extent, -, hinsert⟩
      · rwa [hsame]
      · rw [hinsert]
        exact hknows.insert hkey extent

theorem knows_contains (h : Retained Calm Secure durability before r log after) (key : Bytes) :
    (log.contains key).2.index.Knows r.key (extentAfter before r) := by
  have hindex := log.index_find key
  have hknows : (log.find key).2.index.Knows r.key (extentAfter before r) := by
    rcases hindex with hsame | hget
    · exact hsame ▸ h.knows
    · exact hget ▸ h.knows.get key
  unfold Log.contains
  split
  · exact h.knows
  · split <;> rename_i hfind <;> rw [hfind] at hknows <;> exact hknows

theorem write (laws : Store.SecureLaws Calm Secure) (reliable : Store.Reliable Calm)
    (h : Retained Calm Secure durability before r log after) {key : Bytes} (hkey : key ≠ r.key)
    (value : Bytes) (durability' : Durability) (allowReplace : Bool) :
    ∃ after', Retained Calm Secure durability before r
      (log.write key value durability' allowReplace).2 after' := by
  have hsplit (record : Record) :
      before ++ r :: after ++ [record] = before ++ r :: (after ++ [record]) := by simp
  have hafter : ∀ r' ∈ after ++ [⟨key, value, durability', allowReplace, log.nextSequence⟩],
      r'.key ≠ r.key :=
    List.forall_mem_append.mpr ⟨h.after_ne, List.forall_mem_singleton.mpr hkey⟩
  have hfits {record : Record} (hrecord : record.Fits) :
      ∀ r' ∈ before ++ r :: after ++ [record], r'.Fits :=
    List.forall_mem_append.mpr ⟨h.fits, List.forall_mem_singleton.mpr hrecord⟩
  rcases write_cases laws h.holds h.sequence_fits key value durability' allowReplace with
    ⟨log', hwrite, hcounted⟩ | ⟨e, log', hwrite, hrefused⟩
  · rw [hwrite]
    refine ⟨after ++ [_], ⟨?_, ?_, ?_, ?_⟩, h.before_le, hafter, ?_, ?_⟩
    · rw [← hsplit]
      exact hcounted.holds
    · rw [← hsplit]
      exact hfits hcounted.fits
    · rw [hcounted.sequence_eq]
      exact next_fits _
    · exact hcounted.poisoned_eq.trans h.unpoisoned
    · rw [hcounted.index_eq]
      exact h.knows.insert hkey _
    · exact fun hdurability =>
        hcounted.secure _ (secured_isPrefix before after r) (h.secured hdurability)
  · rw [hwrite]
    have hpoisoned : log'.poisoned = false := by
      rcases hrefused.poisoned with hsame | hbreaks
      · exact hsame.trans h.unpoisoned
      · exact absurd hbreaks reliable.not_breaksOff
    have hsequence := hrefused.sequence_fits h.sequence_fits
    have hknows : log'.index.Knows r.key (extentAfter before r) := by
      rw [hrefused.index_eq]
      exact h.knows
    have hsecured (hdurability : durability = .persist) :=
      hrefused.secure _ (secured_isPrefix before after r) (h.secured hdurability)
    rcases hrefused.left with hleft | ⟨hrecord, -, hleft⟩
    · exact ⟨after, ⟨hleft, h.fits, hsequence, hpoisoned⟩, h.before_le, h.after_ne, hknows,
        hsecured⟩
    · rw [hsplit] at hleft
      exact ⟨_, ⟨hleft, hsplit _ ▸ hfits hrecord, hsequence, hpoisoned⟩, h.before_le, hafter,
        hknows, hsecured⟩

end Retained

/-- A call that does not write a key. -/
def Call.Spares (key : Bytes) : Call → Prop
  | .write key' _ _ _ => key' ≠ key
  | _ => True

theorem Retained.call (laws : Store.SecureLaws Calm Secure) (reliable : Store.Reliable Calm)
    (h : Retained Calm Secure durability before r log after) {c : Call} (hc : c.Spares r.key) :
    ∃ after', Retained Calm Secure durability before r (log.call c).2 after' := by
  by_cases hbarrier : c = .flush ∨ c = .sync
  · obtain ⟨s', hkept, hsame | ⟨hemptied, -⟩⟩ := barrier_call_cases laws h.holds hbarrier
    · rw [hsame]
      exact ⟨after, h.of_kept hkept rfl rfl h.knows⟩
    · rw [hemptied]
      exact ⟨after, h.of_kept hkept rfl rfl h.knows⟩
  have hreads := Kept.reads laws (Record.logBytes (before ++ r :: after)) log.store
  cases c with
  | write key value durability' allowReplace =>
    exact h.write laws reliable hc value durability' allowReplace
  | lookup key =>
    exact ⟨after, h.of_undisturbed (lookup_undisturbed hreads log key)
      (h.knows_lookup reliable.toReadable key)⟩
  | contains key =>
    exact ⟨after, h.of_undisturbed (contains_undisturbed hreads log key) (h.knows_contains key)⟩
  | flush | sync => simp at hbarrier

/-! ## Openings -/

omit [Store σ] in
/-- An index that has replayed a record knows of it, if no newer one of its key was replayed. -/
theorem knows_replay (hbefore : ∀ r' ∈ before, r'.key = r.key →
      r'.sequence.number ≤ r.sequence.number) (hafter : ∀ r' ∈ after, r'.key ≠ r.key)
    (capacity : Nat) :
    (replay (RecencyIndex.ofCapacity capacity)
      (PlacedFrame.layout 0 (before ++ r :: after))).Knows r.key (extentAfter before r) := by
  induction after using List.reverseRecOn with
  | nil =>
    rw [PlacedFrame.layout_concat, replay_append, r.extent_asFrame, ← r.key_asFrame]
    refine RecencyIndex.knows_insert_self fun known hknown => ?_
    obtain ⟨f, hf, hkey, rfl⟩ := (follows_replay capacity).known hknown
    obtain ⟨before', r', after', hsplit, rfl⟩ := PlacedFrame.mem_layout hf
    rw [r'.extent_asFrame]
    refine hbefore r' (by simp [hsplit]) ?_
    rw [← r'.key_asFrame, ← r.key_asFrame]
    exact hkey
  | append_singleton after a ih =>
    have hsplit : before ++ r :: (after ++ [a]) = before ++ r :: after ++ [a] := by simp
    have hne : a.asFrame.key ≠ r.key := by
      rw [a.key_asFrame]
      exact hafter a (by simp)
    rw [hsplit, PlacedFrame.layout_concat, replay_append]
    exact (ih fun r' hr' => hafter r' (List.mem_append_left _ hr')).insert hne _

omit [Store σ] in
/-- The record is among those that are left of the store. -/
theorem Retained.left (h : Retained Calm Secure durability before r log after) {lose : σ → σ}
    (hlose : lose = id ∨ durability = .persist ∧ Store.Spared Calm Secure lose) :
    ∃ kept after', Calm (lose log.store) kept ∧ Recoverable kept (before ++ r :: after') ∧
      after' <+: after ∧
      (durability = .persist → Secure (lose log.store) (Record.logBytes (before ++ [r]))) := by
  rcases hlose with rfl | ⟨hpersist, hspared⟩
  · exact ⟨_, after, h.holds, recoverable_logBytes h.fits, List.prefix_refl _, h.secured⟩
  · have hstart := secured_isPrefix before after r
    have hfits : ∀ r' ∈ before ++ [r], r'.Fits := fun r' hr' => h.fits r' (by
      rcases List.mem_append.mp hr' with hr' | hr' <;> simp_all)
    obtain ⟨kept, hkept, hholds, hsecure⟩ := hspared _ _ h.holds
    obtain ⟨hin, hsecured⟩ := hsecure _ (h.secured hpersist) hstart
    obtain ⟨rs', hrs'⟩ := exists_recoverable kept
    obtain ⟨after', rfl⟩ : before ++ [r] <+: rs' := hrs'.prefix_of_run hfits hin
    have hle : before ++ [r] ++ after' <+: before ++ r :: after :=
      (recoverable_logBytes h.fits).prefix_of_run hrs'.fits
        (hrs'.longestRun.isPrefix.trans hkept)
    rw [List.append_assoc, List.singleton_append] at hle hrs'
    rw [List.prefix_append_right_inj, List.prefix_cons_inj] at hle
    exact ⟨kept, after', hholds, hrs', hle, fun _ => hsecured⟩

end Log

/-! ## Turns -/

namespace Session

open Log

variable {σ : Type} [Store σ] {Calm Secure : σ → Bytes → Prop}

/-- What happens to a log: a call, or an opening over what is left of its store. -/
inductive Turn (σ : Type)
  | call (c : Log.Call)
  | restart (lose : σ → σ) (settings : LogSettings)

def turn (session : Session σ) : Turn σ → Session σ
  | .call c => (session.call c).2
  | .restart lose settings => (session.restart lose (some settings)).2

/-- The session after some turns. -/
def afterTurns (session : Session σ) (turns : List (Turn σ)) : Session σ := turns.foldl turn session

/-- A turn that leaves the record of a key alone. Only a persistent record may be followed by a
loss, and then only by one that spares what is secured. -/
def Turn.Spares (Calm Secure : σ → Bytes → Prop) (key : Bytes) (durability : Durability) :
    Turn σ → Prop
  | .call c => c.Spares key
  | .restart lose settings => settings.validate = .ok () ∧
      (lose = id ∨ durability = .persist ∧ Store.Spared Calm Secure lose)

end Session

namespace Log.Retained

variable {σ : Type} [Store σ] {Calm Secure : σ → Bytes → Prop} {log : Log σ}
  {durability : Durability} {before after : List Record} {r : Record}

open Session (opened)

theorem restart (laws : Store.SecureLaws Calm Secure) (reliable : Store.Reliable Calm)
    (h : Retained Calm Secure durability before r log after) {lose : σ → σ}
    {settings : LogSettings} (hsettings : settings.validate = .ok ())
    (hlose : lose = id ∨ durability = .persist ∧ Store.Spared Calm Secure lose) :
    ∃ log' after', (opened log).restart lose (some settings) = (.ok (), opened log') ∧
      Retained Calm Secure durability before r log' after' := by
  obtain ⟨kept, after', hholds, hrecoverable, hstart, hsecured⟩ := h.left hlose
  have hafter : ∀ r' ∈ after', r'.key ≠ r.key := fun r' hr' => h.after_ne r' (hstart.subset hr')
  obtain ⟨s', hopen, hs'⟩ := open_eq reliable hsettings hholds hrecoverable
  have hrecovered := recovered_ofFrames reliable.toReadLaws hrecoverable settings hs'
  have hstored := stored_ofFrames hrecoverable.fits settings
    (kept.length - (Record.logBytes (before ++ r :: after')).length) hs'
  refine ⟨_, after', ?_, hstored, h.before_le, hafter, knows_replay h.before_le hafter _,
    fun hpersist => ?_⟩
  · simp only [Session.restart, Session.release, Log.release, h.unpoisoned, Bool.false_eq_true,
      if_false, Option.getD_some, Session.store, Session.start, hopen]
  · exact open_secure laws hholds hopen hrecovered (secured_isPrefix before after' r)
      (hsecured hpersist)

theorem turns (laws : Store.SecureLaws Calm Secure) (reliable : Store.Reliable Calm)
    (h : Retained Calm Secure durability before r log after) {turns : List (Session.Turn σ)}
    (hturns : ∀ turn ∈ turns, turn.Spares Calm Secure r.key durability) :
    ∃ log' after', (opened log).afterTurns turns = opened log' ∧
      Retained Calm Secure durability before r log' after' := by
  induction turns generalizing log after with
  | nil => exact ⟨log, after, rfl, h⟩
  | cons turn turns ih =>
    obtain ⟨hturn, hrest⟩ := List.forall_mem_cons.mp hturns
    cases turn with
    | call c =>
      obtain ⟨after', h'⟩ := h.call laws reliable hturn
      exact ih h' hrest
    | restart lose settings =>
      obtain ⟨log', after', hrestart, h'⟩ := h.restart laws reliable hturn.1 hturn.2
      obtain ⟨log'', after'', hafter, h''⟩ := ih h' hrest
      refine ⟨log'', after'', ?_, h''⟩
      rw [← hafter, Session.afterTurns, List.foldl_cons, Session.turn, hrestart]
      rfl

end Log.Retained

end Dataflow

import Dataflow.Proofs.Log.FailedWrites
import Dataflow.Proofs.Log.Provenance
import Dataflow.Proofs.Store.Noting

/-!
# Sequence numbers ascend

A log draws the number of a record before the record is appended, and never gives it out again
while it is open, whatever becomes of the record. When it is opened it continues behind the greatest
number that it finds. Therefore the records of a store ascend from front to back, over any number of
openings, losses and failures; only the greatest number may repeat, since it is followed by itself.

* `SequenceNumber.Precedes`, `Record.Numbered`: numbers that were drawn one after another.
* `Log.run_numbered`: the records that an open log hands to its store.
* `Log.Sequenced`: the records in the store of an open log, and the number that comes next.
* `Climbing`, `Session.start_numbers`: both, in terms of the numbers alone.
-/

namespace Dataflow

/-! ## Numbers that were drawn one after another -/

namespace SequenceNumber

/-- A number that was drawn after another one. The greatest number may be drawn again and again. -/
def Precedes (m n : SequenceNumber) : Prop := m.next.number ≤ n.number

variable {m n : SequenceNumber}

theorem precedes_next (n : SequenceNumber) : n.Precedes n.next := Nat.le_refl _

theorem Precedes.le (h : m.Precedes n) (hm : m.number ≤ maxNumber) : m.number ≤ n.number :=
  Nat.le_trans (Log.le_next hm) h

theorem Precedes.lt (h : m.Precedes n) (hm : m.number < maxNumber) : m.number < n.number :=
  Nat.lt_of_lt_of_le (Nat.lt_min.mpr ⟨Nat.lt_succ_self _, hm⟩) h

end SequenceNumber

namespace Record

/-- The records have drawn their numbers one after another, the first of them `first` or a later
one; the number after all of them is at most `next`. -/
structure Numbered (first : SequenceNumber) (rs : List Record) (next : SequenceNumber) : Prop where
  ordered : rs.Pairwise (·.sequence.Precedes ·.sequence)
  first_le : ∀ r ∈ rs, first.number ≤ r.sequence.number
  before_next : ∀ r ∈ rs, r.sequence.Precedes next
  fits : ∀ r ∈ rs, r.sequence.number ≤ SequenceNumber.maxNumber
  le : first.number ≤ next.number

namespace Numbered

variable {first middle next : SequenceNumber} {rs rs' : List Record}

theorem nil (h : first.number ≤ next.number) : Numbered first [] next :=
  ⟨.nil, nofun, nofun, nofun, h⟩

theorem singleton {r : Record} (h : r.sequence.number ≤ SequenceNumber.maxNumber) :
    Numbered r.sequence [r] r.sequence.next where
  ordered := List.pairwise_singleton _ _
  first_le := List.forall_mem_singleton.mpr (Nat.le_refl _)
  before_next := List.forall_mem_singleton.mpr r.sequence.precedes_next
  fits := List.forall_mem_singleton.mpr h
  le := Log.le_next h

theorem append (h : Numbered first rs middle) (h' : Numbered middle rs' next) :
    Numbered first (rs ++ rs') next where
  ordered := List.pairwise_append.mpr ⟨h.ordered, h'.ordered,
    fun r hr r' hr' => Nat.le_trans (h.before_next r hr) (h'.first_le r' hr')⟩
  first_le := List.forall_mem_append.mpr
    ⟨h.first_le, fun r' hr' => Nat.le_trans h.le (h'.first_le r' hr')⟩
  before_next := List.forall_mem_append.mpr
    ⟨fun r hr => Nat.le_trans (h.before_next r hr) h'.le, h'.before_next⟩
  fits := List.forall_mem_append.mpr ⟨h.fits, h'.fits⟩
  le := Nat.le_trans h.le h'.le

theorem sublist (h : Numbered first rs next) (hrs : rs'.Sublist rs) : Numbered first rs' next where
  ordered := h.ordered.sublist hrs
  first_le r hr := h.first_le r (hrs.subset hr)
  before_next r hr := h.before_next r (hrs.subset hr)
  fits r hr := h.fits r (hrs.subset hr)
  le := h.le

end Numbered

end Record

/-! ## What an open log hands to its store -/

namespace Log

open Store (SameNotes)

variable {σ : Type} [Store σ] {log log' : Log σ}

/-- The records that were handed to the store between two states of a log, and their numbers. -/
structure Hands (log : Log σ) (rs : List Record) (log' : Log σ) : Prop where
  noted_eq : ∀ noted, Store.Notes noted →
    noted log'.store = noted log.store ++ rs.map Record.frame
  numbered : Record.Numbered log.nextSequence rs log'.nextSequence
  fits : log'.nextSequence.number ≤ SequenceNumber.maxNumber

namespace Hands

variable {rs rs' : List Record} {log'' : Log σ}

/-- Nothing was handed over, and no number was drawn. -/
theorem nothing (hfits : log.nextSequence.number ≤ SequenceNumber.maxNumber)
    (hnoted : SameNotes log.store log'.store) (hsequence : log'.nextSequence = log.nextSequence) :
    Hands log [] log' where
  noted_eq noted notes := by rw [hnoted noted notes, List.map_nil, List.append_nil]
  numbered := .nil (Nat.le_of_eq (congrArg SequenceNumber.number hsequence.symm))
  fits := hsequence ▸ hfits

theorem trans (h : Hands log rs log') (h' : Hands log' rs' log'') :
    Hands log (rs ++ rs') log'' where
  noted_eq noted notes := by
    rw [h'.noted_eq noted notes, h.noted_eq noted notes, List.map_append, List.append_assoc]
  numbered := h.numbered.append h'.numbered
  fits := h'.fits

end Hands

/-- Whatever only reads hands nothing over. -/
theorem Undisturbed.hands (hfits : log.nextSequence.number ≤ SequenceNumber.maxNumber)
    (h : Undisturbed (SameNotes log.store) log log') : Hands log [] log' :=
  .nothing hfits (h.store (.refl log.store)) h.sequence_eq

/-- Up to its barrier a write hands its record over, or nothing. -/
theorem stage_hands (hfits : log.nextSequence.number ≤ SequenceNumber.maxNumber)
    (key value : Bytes) (durability : Durability) (allowReplace : Bool) :
    ∃ rs, Hands log rs (log.stage key value durability allowReplace).2 ∧
      ∀ record offset, (log.stage key value durability allowReplace).1 = .ok (record, offset) →
        rs = [record] := by
  have hpermit := permit_undisturbed (SameNotes.reads log.store) log key allowReplace
  unfold stage
  split
  · exact ⟨[], .nothing hfits (.refl _) rfl, nofun⟩
  · rcases hresult : log.permit key allowReplace with ⟨result, log₁⟩
    rw [hresult] at hpermit
    have h₁ := hpermit.hands hfits
    cases result with
    | error e => exact ⟨[], h₁, nofun⟩
    | ok _ =>
      dsimp only at h₁ ⊢
      cases hencode : Record.encode ⟨key, value, durability, allowReplace, log₁.nextSequence⟩ with
      | error e => exact ⟨[], h₁, nofun⟩
      | ok frame =>
        obtain ⟨-, -, rfl⟩ := Record.encode_eq_ok_iff.mp hencode
        generalize hrecord :
          Record.mk key value durability allowReplace log₁.nextSequence = record
        have hsequence : log₁.nextSequence = record.sequence := by rw [← hrecord]
        rcases happend : Store.append log₁.store record.frame with ⟨result, s₂⟩
        have hdrawn {log₂ : Log σ} (hstore : log₂.store = s₂)
            (hnext : log₂.nextSequence = log₁.nextSequence.next) : Hands log [record] log₂ := by
          refine h₁.trans ⟨fun noted notes => ?_, ?_, ?_⟩
          · rw [hstore, notes.append happend, List.map_singleton]
          · rw [hnext, hsequence]
            exact .singleton (hsequence ▸ h₁.fits)
          · rw [hnext]
            exact next_fits _
        dsimp only
        rw [happend]
        cases result with
        | error failure => cases failure <;> exact ⟨[record], hdrawn rfl rfl, nofun⟩
        | ok offset =>
          refine ⟨[record], hdrawn rfl rfl, fun record' offset' heq => ?_⟩
          cases heq
          rfl

theorem nextSequence_flushStore (log : Log σ) :
    log.flushStore.2.nextSequence = log.nextSequence := by
  unfold flushStore
  split <;> rfl

theorem nextSequence_syncStore (log : Log σ) (operation : Operation) :
    (log.syncStore operation).2.nextSequence = log.nextSequence := by
  unfold syncStore
  split <;> rfl

theorem nextSequence_pass (log : Log σ) (barrier : Barrier) :
    (log.pass barrier).2.nextSequence = log.nextSequence := by
  cases barrier with
  | none => rfl
  | flush => exact log.nextSequence_flushStore
  | sync => exact log.nextSequence_syncStore .syncRecord

/-- From its barrier on a write hands nothing over; if it counts, it answers the number of its
record. -/
theorem conclude_hands (hfits : log.nextSequence.number ≤ SequenceNumber.maxNumber)
    (record : Record) (offset : Nat) :
    Hands log [] (log.conclude record offset).2 ∧
      ∀ sequence, (log.conclude record offset).1 = .ok sequence → sequence = record.sequence := by
  have hnoted := pass_preserves (SameNotes.barriers log.store) (.refl log.store)
    (log.settings.flushPolicy.barrier record.durability log.unflushedRecords)
  have hsequence := log.nextSequence_pass
    (log.settings.flushPolicy.barrier record.durability log.unflushedRecords)
  unfold conclude
  split <;> rename_i log₁ hpass <;> rw [hpass] at hnoted hsequence
  · refine ⟨.nothing hfits ?_ hsequence, nofun⟩
    exact hnoted.truncate rfl
  · refine ⟨.nothing hfits hnoted hsequence, fun sequence heq => ?_⟩
    cases heq
    rfl

/-- A write hands its record over, or nothing. If it counts, it answers the number of its record. -/
theorem write_hands (hfits : log.nextSequence.number ≤ SequenceNumber.maxNumber)
    (key value : Bytes) (durability : Durability) (allowReplace : Bool) :
    ∃ rs, Hands log rs (log.write key value durability allowReplace).2 ∧
      ∀ sequence, (log.write key value durability allowReplace).1 = .ok sequence →
        rs = [⟨key, value, durability, allowReplace, sequence⟩] := by
  obtain ⟨rs, hstage, hreached⟩ := stage_hands hfits key value durability allowReplace
  rw [write_eq]
  rcases hresult : log.stage key value durability allowReplace with ⟨_ | ⟨record, offset⟩, log₁⟩
  · rw [hresult] at hstage
    exact ⟨rs, hstage, nofun⟩
  · rw [hresult] at hstage hreached
    obtain ⟨rfl, -⟩ := stage_reached hresult
    obtain ⟨hconclude, hanswer⟩ := conclude_hands hstage.fits _ offset
    have hboth := hstage.trans hconclude
    rw [List.append_nil] at hboth
    refine ⟨rs, hboth, fun sequence heq => ?_⟩
    rw [hreached _ _ rfl, hanswer sequence heq]

theorem call_hands (hfits : log.nextSequence.number ≤ SequenceNumber.maxNumber) (c : Call) :
    ∃ rs, Hands log rs (log.call c).2 ∧
      (c.acknowledged? (log.call c).1).toList.Sublist rs := by
  have hreads := SameNotes.reads log.store
  have hbarriers := SameNotes.barriers log.store
  cases c with
  | write key value durability allowReplace =>
    obtain ⟨rs, hwrite, hanswer⟩ := write_hands hfits key value durability allowReplace
    refine ⟨rs, hwrite, ?_⟩
    rcases hresult : log.write key value durability allowReplace with ⟨_ | sequence, log'⟩
    · rw [call, hresult]
      exact List.nil_sublist rs
    · rw [call, hresult, hanswer sequence (congrArg Prod.fst hresult)]
      exact List.Sublist.refl _
  | lookup key =>
    exact ⟨[], (lookup_undisturbed hreads log key).hands hfits, List.Sublist.refl _⟩
  | contains key =>
    exact ⟨[], (contains_undisturbed hreads log key).hands hfits, List.Sublist.refl _⟩
  | flush =>
    refine ⟨[], .nothing hfits (flush_preserves hbarriers (.refl _)) ?_, List.Sublist.refl _⟩
    change log.flush.2.nextSequence = _
    unfold flush
    split
    · rfl
    · exact log.nextSequence_flushStore
  | sync =>
    refine ⟨[], .nothing hfits (sync_preserves hbarriers (.refl _)) ?_, List.Sublist.refl _⟩
    change log.sync.2.nextSequence = _
    unfold sync
    split
    · rfl
    · exact log.nextSequence_syncStore .syncLog

/-- The records that an open log hands to its store have drawn their numbers one after another, and
those that it acknowledges are among them. -/
theorem run_hands (hfits : log.nextSequence.number ≤ SequenceNumber.maxNumber)
    (calls : List Call) :
    ∃ rs, Hands log rs (log.run calls).2 ∧ (log.run calls).1.Sublist rs := by
  induction calls generalizing log with
  | nil => exact ⟨[], .nothing hfits (.refl _) rfl, List.Sublist.refl _⟩
  | cons c calls ih =>
    obtain ⟨rs, hcall, hacknowledged⟩ := call_hands hfits c
    obtain ⟨rs', hrun, hacknowledged'⟩ := ih hcall.fits
    exact ⟨rs ++ rs', hcall.trans hrun, hacknowledged.append hacknowledged'⟩

/-! ## The records in the store of an open log -/

variable {Holds : σ → Bytes → Prop} {rs : List Record}

/-- The records in the store of a log have drawn their numbers one after another, before the number
that comes next. -/
structure Sequenced (Holds : σ → Bytes → Prop) (log : Log σ) (rs : List Record) : Prop where
  holds : Holds log.store (Record.logBytes rs)
  fits : ∀ r ∈ rs, r.Fits
  numbered : Record.Numbered .zero rs log.nextSequence
  next_le : log.nextSequence.number ≤ SequenceNumber.maxNumber

namespace Sequenced

omit [Store σ] in
theorem of_undisturbed (h : log.Sequenced Holds rs)
    (hlog : log.Undisturbed (fun s => Holds s (Record.logBytes rs)) log') :
    log'.Sequenced Holds rs where
  holds := hlog.store h.holds
  fits := h.fits
  numbered := hlog.sequence_eq ▸ h.numbered
  next_le := hlog.sequence_eq ▸ h.next_le

theorem write (laws : Store.Laws Holds) (h : log.Sequenced Holds rs) (key value : Bytes)
    (durability : Durability) (allowReplace : Bool) :
    ∃ rs', (log.write key value durability allowReplace).2.Sequenced Holds rs' := by
  generalize hrecord : Record.mk key value durability allowReplace log.nextSequence = record
  have hsequence : log.nextSequence = record.sequence := by rw [← hrecord]
  -- a record that stays in the store has drawn the next number, whether or not it counts
  have hdrawn {log' : Log σ} (hfits : record.Fits)
      (hholds : Holds log'.store (Record.logBytes (rs ++ [record])))
      (hnext : log'.nextSequence = log.nextSequence.next) :
      log'.Sequenced Holds (rs ++ [record]) := by
    refine ⟨hholds, ?_, ?_, ?_⟩
    · exact List.forall_mem_append.mpr ⟨h.fits, List.forall_mem_singleton.mpr hfits⟩
    · rw [hnext]
      exact h.numbered.append (hsequence ▸ Record.Numbered.singleton hfits.sequence)
    · rw [hnext]
      exact next_fits _
  rcases write_cases laws.secureLaws h.holds h.next_le key value durability allowReplace with
    ⟨log', hwrite, hcounted⟩ | ⟨e, log', hwrite, hrefused⟩
  · rw [hrecord] at hcounted
    rw [hwrite]
    exact ⟨_, hdrawn hcounted.fits hcounted.holds hcounted.sequence_eq⟩
  · rw [hrecord] at hrefused
    rw [hwrite]
    rcases hrefused.left with hleft | ⟨hfits, hnext, hleft⟩
    · have hnumbered := h.numbered.append (.nil (hrefused.sequence_le h.next_le))
      rw [List.append_nil] at hnumbered
      exact ⟨rs, hleft, h.fits, hnumbered, hrefused.sequence_fits h.next_le⟩
    · exact ⟨_, hdrawn hfits hleft hnext⟩

theorem call (laws : Store.Laws Holds) (h : log.Sequenced Holds rs) (c : Call) :
    ∃ rs', (log.call c).2.Sequenced Holds rs' := by
  by_cases hbarrier : c = .flush ∨ c = .sync
  · obtain ⟨s', hkept, hsame | ⟨hemptied, -⟩⟩ :=
      barrier_call_cases laws.secureLaws h.holds hbarrier
    · rw [hsame]
      exact ⟨rs, { h with holds := hkept.holds }⟩
    · rw [hemptied]
      exact ⟨rs, { h with holds := hkept.holds }⟩
  have hreads := laws.readAt_keeps (Record.logBytes rs)
  cases c with
  | write key value durability allowReplace => exact h.write laws key value durability allowReplace
  | lookup key => exact ⟨rs, h.of_undisturbed (lookup_undisturbed hreads log key)⟩
  | contains key => exact ⟨rs, h.of_undisturbed (contains_undisturbed hreads log key)⟩
  | flush | sync => simp at hbarrier

end Sequenced

/-! ## The records that are left of them -/

/-- A store holds a first part of the bytes of some records that have drawn their numbers one after
another. -/
def Leftover (Holds : σ → Bytes → Prop) (s : σ) : Prop :=
  ∃ rs next image, (∀ r ∈ rs, r.Fits) ∧ Record.Numbered .zero rs next ∧
    image <+: Record.logBytes rs ∧ Holds s image

namespace Leftover

variable {s : σ}

omit [Store σ] in
theorem empty (hs : Holds s []) : Leftover Holds s :=
  ⟨[], .zero, [], nofun, .nil (Nat.le_refl _), List.prefix_refl _, hs⟩

omit [Store σ] in
theorem lose (h : Leftover Holds s) {lose : σ → σ} (hlose : Store.Loses Holds lose) :
    Leftover Holds (lose s) := by
  obtain ⟨rs, next, image, hfits, hnumbered, himage, hs⟩ := h
  obtain ⟨kept, hkept, hholds⟩ := hlose s image hs
  exact ⟨rs, next, kept, hfits, hnumbered, hkept.trans himage, hholds⟩

omit [Store σ] in
/-- The records that an opening finds are a first part of the records. -/
theorem longestRun (h : Leftover Holds s) :
    ∃ image rs next, Holds s image ∧ LongestRun image rs ∧ Record.Numbered .zero rs next := by
  obtain ⟨rs, next, image, hfits, hnumbered, himage, hs⟩ := h
  obtain ⟨kept, hkept⟩ := exists_recoverable image
  have hprefix : kept <+: rs := (recoverable_logBytes hfits).prefix_of_run hkept.fits
    (hkept.longestRun.isPrefix.trans himage)
  exact ⟨image, kept, next, hs, hkept.longestRun, hnumbered.sublist hprefix.sublist⟩

/-- An opened log continues behind the greatest number that it finds. -/
theorem «open» (laws : Store.Laws Holds) (h : Leftover Holds s) {settings : LogSettings}
    (hopen : Log.open settings s = .ok log) : ∃ rs, log.Sequenced Holds rs := by
  obtain ⟨rs, next, image, hfits, hnumbered, himage, hs⟩ := h
  obtain ⟨kept, hrecovered⟩ := open_recovered laws hs hopen
  have hkept := hrecovered.longestRun
  have hprefix : kept <+: rs := (recoverable_logBytes hfits).prefix_of_run hkept.fits
    (hkept.isPrefix.trans himage)
  have hnext : log.nextSequence = (lastSequence (PlacedFrame.layout 0 kept)).next := by
    rw [hrecovered.replays]
    rfl
  refine ⟨kept, hrecovered.holds, hkept.fits, ?_, ?_⟩
  · refine { hnumbered.sublist hprefix.sublist with before_next := fun r hr => ?_, le := ?_ }
    · have hlast := le_lastSequence r hr
      rw [hnext, SequenceNumber.Precedes, SequenceNumber.next, SequenceNumber.next]
      dsimp only
      omega
    · exact Nat.zero_le _
  · rw [hnext]
    exact next_fits _

theorem refused (laws : Store.Laws Holds) (h : Leftover Holds s) {settings : LogSettings}
    {e : Error} {s' : σ} (hopen : Log.open settings s = .error (e, s')) : Leftover Holds s' := by
  obtain ⟨rs, next, image, hfits, hnumbered, himage, hs⟩ := h
  exact ⟨rs, next, image, hfits, hnumbered, himage, open_refused laws hs hopen⟩

end Leftover

end Log

/-! ## Sessions -/

namespace Session

open Log

variable {σ : Type} {Holds : σ → Bytes → Prop} {session : Session σ}

/-- The records in the store have drawn their numbers one after another, whether or not a log is
open on it. -/
def Sequenced (Holds : σ → Bytes → Prop) : Session σ → Prop
  | opened log => ∃ rs, log.Sequenced Holds rs
  | closed _ s => Leftover Holds s

theorem Sequenced.leftover (h : session.Sequenced Holds) : Leftover Holds session.store := by
  cases session with
  | opened log =>
    obtain ⟨rs, h⟩ := h
    exact ⟨rs, _, _, h.fits, h.numbered, List.prefix_refl _, h.holds⟩
  | closed settings s => exact h

variable [Store σ]

theorem sequenced_start (laws : Store.Laws Holds) {s : σ} (h : Leftover Holds s)
    (settings : LogSettings) : (start settings s).2.Sequenced Holds := by
  unfold start
  split
  · rename_i hopen
    exact h.refused laws hopen
  · rename_i hopen
    exact h.open laws hopen

theorem Sequenced.turn (laws : Store.Laws Holds) (h : session.Sequenced Holds) {turn : Turn σ}
    (hturn : turn.Loses Holds) : (session.turn turn).Sequenced Holds := by
  cases turn with
  | call c =>
    cases session with
    | opened log =>
      obtain ⟨rs, h⟩ := h
      exact h.call laws c
    | closed settings s => exact h
  | restart lose settings =>
    have hleft := h.leftover
    cases session with
    | opened log =>
      rw [Session.turn, restart, release, Log.release]
      -- a poisoned log is given up, and nothing happens to its store
      by_cases hpoisoned : log.poisoned = true
      · rw [if_pos hpoisoned]
        exact hleft
      · rw [if_neg hpoisoned]
        exact sequenced_start laws (hleft.lose hturn) settings
    | closed settings' s => exact sequenced_start laws (hleft.lose hturn) settings

theorem Sequenced.afterTurns (laws : Store.Laws Holds) (h : session.Sequenced Holds)
    {turns : List (Turn σ)} (hturns : ∀ turn ∈ turns, turn.Loses Holds) :
    (session.afterTurns turns).Sequenced Holds := by
  induction turns generalizing session with
  | nil => exact h
  | cons turn turns ih =>
    obtain ⟨hturn, hturns⟩ := List.forall_mem_cons.mp hturns
    exact ih (h.turn laws hturn) hturns

end Session

/-! ## In terms of the numbers -/

/-- The numbers of some records. -/
def Record.numbers (rs : List Record) : List Nat := rs.map (·.sequence.number)

/-- Numbers that do not descend. As long as the greatest is not among them, no two are equal. -/
structure Climbing (numbers : List Nat) : Prop where
  sorted : numbers.Pairwise (· ≤ ·)
  strict : SequenceNumber.maxNumber ∉ numbers → numbers.Pairwise (· < ·)

/-- A number that is not exceeded by some others. As long as the greatest is not among them, it
exceeds them all. -/
structure Caps (next : Nat) (numbers : List Nat) : Prop where
  le : ∀ n ∈ numbers, n ≤ next
  lt : SequenceNumber.maxNumber ∉ numbers → ∀ n ∈ numbers, n < next

namespace Record.Numbered

variable {first next : SequenceNumber} {rs : List Record}

theorem lt_max (h : Numbered first rs next) (hmax : SequenceNumber.maxNumber ∉ numbers rs)
    {r : Record} (hr : r ∈ rs) : r.sequence.number < SequenceNumber.maxNumber := by
  refine Nat.lt_of_le_of_ne (h.fits r hr) fun heq => hmax ?_
  rw [← heq]
  exact List.mem_map_of_mem hr

theorem climbing (h : Numbered first rs next) : Climbing (numbers rs) where
  sorted := List.pairwise_map.mpr (h.ordered.imp_of_mem fun ha _ hab => hab.le (h.fits _ ha))
  strict hmax :=
    List.pairwise_map.mpr (h.ordered.imp_of_mem fun ha _ hab => hab.lt (h.lt_max hmax ha))

theorem caps (h : Numbered first rs next) : Caps next.number (numbers rs) where
  le := List.forall_mem_map.mpr fun r hr => (h.before_next r hr).le (h.fits r hr)
  lt hmax := List.forall_mem_map.mpr fun r hr => (h.before_next r hr).lt (h.lt_max hmax hr)

end Record.Numbered

/-- The errors of a write whose record was not encoded. -/
inductive Error.DrawsNoNumber : Error → Prop
  | doubleWrite (subject : Subject) : DrawsNoNumber (.doubleWrite subject)
  | keyTooLong (length : Nat) : DrawsNoNumber (.command (.keyTooLong length))
  | valueTooLong (length : Nat) : DrawsNoNumber (.command (.valueTooLong length))
  | scan (offset : Nat) (fault : FrameFault) : DrawsNoNumber (fault.at offset)

/-- Errors of the append and of the barrier are no such errors. -/
theorem Error.DrawsNoNumber.not_io {operation : Operation} {source : IoError}
    (h : Error.DrawsNoNumber (.io operation source)) :
    ∃ offset, operation = .readRecord offset := by
  generalize he : Error.io operation source = e at h
  cases h with
  | doubleWrite | keyTooLong | valueTooLong => cases he
  | scan offset fault =>
    cases fault <;> cases he
    exact ⟨offset, rfl⟩

namespace Log

variable {σ : Type} [Store σ] {log log' : Log σ}

theorem nextSequence_of_error {key value : Bytes} {durability : Durability} {allowReplace : Bool}
    {e : Error}
    (hwrite : log.write key value durability allowReplace = (.error (.reported e), log'))
    (he : e.DrawsNoNumber) : log'.nextSequence = log.nextSequence := by
  obtain ⟨encoded, hfault, hlog'⟩ := write_fault hwrite
  have hdrawn : encoded = false := by
    cases hfault with
    | append | flush | sync =>
      obtain ⟨offset, hoperation⟩ := he.not_io
      cases hoperation
    | poisoned | doubleWrite | unscanned | keyTooLong | valueTooLong => rfl
  rw [hlog', hdrawn]
  rfl

/-- The numbers that an open log draws while it answers some calls. -/
structure DrawsClimbing (log : Log σ) (calls : List Call) : Prop where
  /-- Every record that is handed to the store draws a number of its own, whatever becomes of it. -/
  handed : ∃ rs, (∀ noted, Store.Notes noted →
      noted (log.run calls).2.store = noted log.store ++ rs.map Record.frame) ∧
    Climbing (Record.numbers rs)
  acknowledged : Climbing (Record.numbers (log.run calls).1)
  /-- A write that is refused before its record is encoded draws none. -/
  refused : ∀ {key value durability allowReplace e log'},
    (log.run calls).2.write key value durability allowReplace = (.error (.reported e), log') →
      e.DrawsNoNumber → log'.nextSequence = (log.run calls).2.nextSequence

theorem run_numbered (hfits : log.nextSequence.number ≤ SequenceNumber.maxNumber)
    (calls : List Call) : log.DrawsClimbing calls where
  handed := by
    obtain ⟨rs, hhands, -⟩ := run_hands hfits calls
    exact ⟨rs, hhands.noted_eq, hhands.numbered.climbing⟩
  acknowledged := by
    obtain ⟨rs, hhands, hacknowledged⟩ := run_hands hfits calls
    exact (hhands.numbered.sublist hacknowledged).climbing
  refused := nextSequence_of_error

end Log

namespace Session

open Log

variable {σ : Type} [Store σ] {Holds : σ → Bytes → Prop}

/-- The records in the store of a session carry ascending numbers, and an open log continues behind
them. -/
inductive HoldsClimbing (Holds : σ → Bytes → Prop) : Session σ → Prop
  | opened (log : Log σ) (rs : List Record) (holds : Holds log.store (Record.logBytes rs))
      (fits : ∀ r ∈ rs, r.Fits) (climbing : Climbing (Record.numbers rs))
      (caps : Caps log.nextSequence.number (Record.numbers rs)) :
    HoldsClimbing Holds (.opened log)
  | closed (settings : LogSettings) (s : σ) (image : Bytes) (rs : List Record)
      (holds : Holds s image) (longestRun : LongestRun image rs)
      (climbing : Climbing (Record.numbers rs)) : HoldsClimbing Holds (.closed settings s)

omit [Store σ] in
theorem Sequenced.holdsClimbing {session : Session σ} (h : session.Sequenced Holds) :
    session.HoldsClimbing Holds := by
  cases session with
  | opened log =>
    obtain ⟨rs, h⟩ := h
    exact .opened log rs h.holds h.fits h.numbered.climbing h.numbered.caps
  | closed settings s =>
    obtain ⟨image, rs, next, hs, hrun, hnumbered⟩ := Leftover.longestRun h
    exact .closed settings s image rs hs hrun hnumbered.climbing

/-- Over any number of openings, losses and failures of the store, the records of a store that was
empty at first carry ascending numbers from front to back, and an open log continues behind them. -/
theorem start_numbers (laws : Store.Laws Holds) {s : σ} (hs : Holds s []) (settings : LogSettings)
    {turns : List (Turn σ)} (hturns : ∀ turn ∈ turns, turn.Loses Holds) :
    ((start settings s).2.afterTurns turns).HoldsClimbing Holds ∧
      ∀ log, (start settings s).2.afterTurns turns = .opened log →
        ∀ calls, log.DrawsClimbing calls := by
  have hsequenced := (sequenced_start laws (.empty hs) settings).afterTurns laws hturns
  refine ⟨hsequenced.holdsClimbing, fun log hopened calls => ?_⟩
  rw [hopened] at hsequenced
  obtain ⟨rs, h⟩ := hsequenced
  exact run_numbered h.next_le calls

/-- A sync fails and its record cannot be cut off, so that it keeps its place and its number. Then
the process crashes with one record unflushed, and the number of that record is drawn again. -/
theorem start_numbers_mishaps :
    let mishap (n : Nat) : Option Mishap :=
      if n = 1 then some (.halfWay (.injected .sync))
      else if n = 2 then some (.atOnce (.injected .truncate)) else none
    let s : NotingStore (ErraticStore MemoryStore) := { inner := ⟨.ofBytes [], mishap, 0⟩ }
    let Kept : NotingStore (ErraticStore MemoryStore) → Bytes → Prop :=
      NotingStore.Holds (ErraticStore.Holds MemoryStore.Holds)
    let crash (s : NotingStore (ErraticStore MemoryStore)) :
        NotingStore (ErraticStore MemoryStore) :=
      { s with inner := { s.inner with inner := s.inner.inner.crash } }
    let turns : List (Turn (NotingStore (ErraticStore MemoryStore))) :=
      [.call (.write [1] [10] .persist true), .call (.write [2] [20] .transient true),
        .restart crash {}, .call (.write [3] [30] .persist false)]
    let after := (start {} s).2.afterTurns turns
    Store.Laws Kept ∧ Kept s [] ∧ (∀ turn ∈ turns, turn.Loses Kept) ∧ after.HoldsClimbing Kept ∧
      ∃ log, after = .opened log ∧ log.nextSequence.number = 3 ∧
        ∀ calls, log.DrawsClimbing calls := by
  intro mishap s Kept crash turns after
  have laws : Store.Laws Kept :=
    NotingStore.laws (ErraticStore.crashLaws MemoryStore.crashLaws).toLaws
  have hs : Kept s [] := by
    change (MemoryStore.ofBytes []).Holds []
    rfl
  have hcrash : Store.Loses Kept crash := fun s b hb =>
    MemoryStore.spared_crash.loses s.inner.inner b hb
  have hturns : ∀ turn ∈ turns, turn.Loses Kept := by
    simp [turns, Turn.Loses, hcrash]
  have hnext : Session.casesOn (motive := fun _ => Nat) after (fun log => log.nextSequence.number)
      (fun _ _ => 0) = 3 := by decide +kernel
  obtain ⟨hholds, hdraws⟩ : after.HoldsClimbing Kept ∧
      ∀ log, after = .opened log → ∀ calls, log.DrawsClimbing calls :=
    start_numbers laws hs {} hturns
  refine ⟨laws, hs, hturns, hholds, ?_⟩
  clear_value after
  cases after with
  | opened log => exact ⟨log, rfl, hnext, hdraws log rfl⟩
  | closed settings s' => cases hnext

end Session

end Dataflow

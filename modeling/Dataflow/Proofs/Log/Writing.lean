import Dataflow.Proofs.Log.Soundness

/-!
# Writing to a sound log

A write that counts adds its record behind those in the store; any other write leaves the records
as they were, whatever failed and when.

* `Log.hasKey_sound`: asking before a write that must not replace anything.
* `Log.commit_stored`: appending a frame and passing its barrier, or taking the frame back.
* `Log.flush_sound`, `Log.sync_sound`: barriers on their own.
-/

namespace Dataflow.Log

variable {σ : Type} [Store σ] {Holds : σ → Bytes → Prop} {log : Log σ} {rs : List Record}

/-! ## Barriers -/

/-- A barrier keeps the bytes of the store, whether or not it is passed. -/
theorem flushStore_keeps (laws : Store.Laws Holds) {b : Bytes} (hs : Holds log.store b) :
    ∃ s' waiting, log.flushStore.2 = { log with store := s', unflushedRecords := waiting } ∧
      Holds s' b ∧ ∀ e, log.flushStore.1 = .error e →
        ∃ operation source, e = .io operation source ∧ Store.Fails Holds source := by
  rcases hflush : Store.flush log.store with ⟨result, s'⟩
  have hs' := laws.flush_keeps hs hflush
  unfold flushStore
  rw [hflush]
  cases result with
  | error e =>
    refine ⟨s', log.unflushedRecords, rfl, hs', fun e' he' => ?_⟩
    cases he'
    exact ⟨_, e, rfl, log.store, b, hs, Or.inr (Or.inl (congrArg Prod.fst hflush))⟩
  | ok _ => exact ⟨s', 0, rfl, hs', fun e' he' => by cases he'⟩

theorem syncStore_keeps (laws : Store.Laws Holds) {b : Bytes} (hs : Holds log.store b)
    (operation : Operation) :
    ∃ s' waiting, (log.syncStore operation).2 =
        { log with store := s', unflushedRecords := waiting } ∧
      Holds s' b ∧ ∀ e, (log.syncStore operation).1 = .error e →
        ∃ operation source, e = .io operation source ∧ Store.Fails Holds source := by
  rcases hsync : Store.sync log.store with ⟨result, s'⟩
  have hs' := laws.sync_keeps hs hsync
  unfold syncStore
  rw [hsync]
  cases result with
  | error e =>
    refine ⟨s', log.unflushedRecords, rfl, hs', fun e' he' => ?_⟩
    cases he'
    exact ⟨_, e, rfl, log.store, b, hs, Or.inr (Or.inr (congrArg Prod.fst hsync))⟩
  | ok _ => exact ⟨s', 0, rfl, hs', fun e' he' => by cases he'⟩

theorem pass_keeps (laws : Store.Laws Holds) {b : Bytes} (hs : Holds log.store b)
    (barrier : Barrier) :
    ∃ s' waiting, (log.pass barrier).2 = { log with store := s', unflushedRecords := waiting } ∧
      Holds s' b ∧ ∀ e, (log.pass barrier).1 = .error e →
        ∃ operation source, e = .io operation source ∧ Store.Fails Holds source := by
  cases barrier with
  | none => exact ⟨log.store, log.unflushedRecords, rfl, hs, fun e he => by cases he⟩
  | flush => exact flushStore_keeps laws hs
  | sync => exact syncStore_keeps laws hs .syncRecord

theorem flush_sound (reliable : Store.Reliable Holds) (h : log.Sound Holds rs) :
    log.flush.2.Sound Holds rs ∧ log.flush.2.settings = log.settings := by
  obtain ⟨s', waiting, hflush, hs', -⟩ := flushStore_keeps reliable.toLaws h.holds
  unfold flush
  rw [if_neg (by simp [h.unpoisoned]), hflush]
  exact ⟨{ h with holds := hs' }, rfl⟩

theorem sync_sound (reliable : Store.Reliable Holds) (h : log.Sound Holds rs) :
    log.sync.2.Sound Holds rs ∧ log.sync.2.settings = log.settings := by
  obtain ⟨s', waiting, hsync, hs', -⟩ := syncStore_keeps reliable.toLaws h.holds .syncLog
  unfold sync
  rw [if_neg (by simp [h.unpoisoned]), hsync]
  exact ⟨{ h with holds := hs' }, rfl⟩

/-! ## Permission -/

/-- Asking for a key tells whether it has a record, through the index or through a scan. -/
theorem hasKey_sound (readable : Store.Readable Holds) (h : log.Sound Holds rs) (key : Bytes) :
    ∃ s', log.hasKey key = (.ok (Record.contents rs key).isSome, { log with store := s' }) ∧
      Holds s' (Record.logBytes rs) := by
  rw [← (h.newest key).isSome]
  unfold hasKey
  split
  · rename_i hindexed
    rw [contains_index] at hindexed
    obtain ⟨entry, hentry⟩ := Option.isSome_iff_exists.mp hindexed
    have hknown := h.tracks.known (congrArg (Option.map (·.extent)) hentry)
    exact ⟨log.store, by rw [hknown]; rfl, h.holds⟩
  · rename_i hmissing
    split
    · obtain ⟨s', hscan, hs'⟩ := scan_stored readable h.toStored key
      exact ⟨s', by rw [hscan], hs'⟩
    · rename_i hpartial
      have hnone : log.index.entries.get? key = none := by
        rw [contains_index, Option.not_isSome_iff_eq_none] at hmissing
        exact hmissing
      rw [h.tracks.complete (Bool.eq_false_iff.mpr hpartial) hnone]
      exact ⟨log.store, rfl, h.holds⟩

theorem permit_sound (readable : Store.Readable Holds) (h : log.Sound Holds rs) (key : Bytes)
    (allowReplace : Bool) :
    ∃ s', log.permit key allowReplace =
        (if allowReplace = false ∧ (Record.contents rs key).isSome then
          .error (.doubleWrite (.logKey key)) else .ok (), { log with store := s' }) ∧
      Holds s' (Record.logBytes rs) := by
  unfold permit
  cases allowReplace with
  | true => exact ⟨log.store, by simp, h.holds⟩
  | false =>
    obtain ⟨s', hhasKey, hs'⟩ := hasKey_sound readable h key
    refine ⟨s', ?_, hs'⟩
    rw [if_neg (by simp), hhasKey]
    cases (Record.contents rs key).isSome <;> rfl

/-! ## Commitment -/

/-- A commitment that counts puts its record behind those in the store and into the index. -/
structure Committed (Holds : σ → Bytes → Prop) (log log' : Log σ) (rs : List Record)
    (record : Record) : Prop where
  stored : log'.Stored Holds (rs ++ [record])
  index_eq : log'.index = (log.index.insert record.key
    ⟨(Record.logBytes rs).length, record.frame.length, record.sequence⟩).2
  sequence_eq : log'.nextSequence = log.nextSequence
  settings_eq : log'.settings = log.settings

/-- A commitment that fails leaves the records and the index as they were. -/
structure TakenBack (Holds : σ → Bytes → Prop) (log log' : Log σ) (rs : List Record) :
    Prop where
  stored : log'.Stored Holds rs
  index_eq : log'.index = log.index
  sequence_eq : log'.nextSequence = log.nextSequence
  settings_eq : log'.settings = log.settings

/-- Cutting the last record off again leaves the records before it. -/
theorem retract_holds (reliable : Store.Reliable Holds) {record : Record}
    (hs : Holds log.store (Record.logBytes (rs ++ [record]))) :
    Holds (log.retract (Record.logBytes rs).length).store (Record.logBytes rs) := by
  obtain ⟨s', htruncate⟩ := reliable.truncate_reliable hs (Record.logBytes rs).length
  have hs' := reliable.truncate_ok hs htruncate
  rw [Record.logBytes_append, List.take_left] at hs'
  rw [retract, htruncate]
  exact hs'

theorem commit_stored (reliable : Store.Reliable Holds) (h : log.Stored Holds rs)
    {record : Record} (hfits : record.Fits) :
    (∃ log', log.commit record record.frame = (.ok record.sequence, log') ∧
        Committed Holds log log' rs record) ∨
      ∃ operation source log', log.commit record record.frame =
          (.error (.reported (.io operation source)), log') ∧
        TakenBack Holds log log' rs ∧ Store.Fails Holds source := by
  rcases happend : Store.append log.store record.frame with ⟨result, s₁⟩
  unfold commit
  rw [happend]
  cases result with
  | error e =>
    have hs₁ := reliable.append_error h.holds happend
    cases e with
    | brokenOff => exact absurd happend (reliable.append_reports h.holds)
    | reported e =>
      refine Or.inr ⟨.appendRecord, e, _, rfl, ⟨h.setStore hs₁, rfl, rfl, rfl⟩, ?_⟩
      exact ⟨log.store, _, h.holds, Or.inl ⟨_, congrArg Prod.fst happend⟩⟩
  | ok offset =>
    obtain ⟨rfl, hs₁⟩ := reliable.append_ok h.holds happend
    have hbytes : Record.logBytes rs ++ record.frame = Record.logBytes (rs ++ [record]) := by
      simp
    rw [hbytes] at hs₁
    dsimp only
    generalize hbarrier : FlushPolicy.barrier _ _ _ = barrier
    generalize hlog₁ : ({ log with store := s₁, unflushedRecords := log.unflushedRecords + 1 } :
      Log σ) = log₁
    have hs₁' : Holds log₁.store (Record.logBytes (rs ++ [record])) := hlog₁ ▸ hs₁
    obtain ⟨s₂, waiting, hpass, hs₂, herror⟩ := pass_keeps reliable.toLaws hs₁' barrier
    rcases hresult : log₁.pass barrier with ⟨result, log₂⟩
    rw [hresult] at hpass herror
    subst hlog₁
    cases result with
    | error e =>
      obtain ⟨operation, source, rfl, hfails⟩ := herror e rfl
      subst hpass
      refine Or.inr ⟨operation, source, _, rfl, ⟨?_, rfl, rfl, rfl⟩, hfails⟩
      exact ⟨retract_holds reliable hs₂, h.fits, h.sequence_fits, h.unpoisoned⟩
    | ok _ =>
      subst hpass
      refine Or.inl ⟨_, rfl, ⟨hs₂, ?_, h.sequence_fits, h.unpoisoned⟩, rfl, rfl, rfl⟩
      intro r hr
      rcases List.mem_append.mp hr with hr | hr
      · exact h.fits r hr
      · exact List.mem_singleton.mp hr ▸ hfits

omit [Store σ] in
/-- A record that counts keeps a log sound, if its sequence number is the greatest so far. -/
theorem Committed.sound {log' : Log σ} {record : Record} (h : log.Sound Holds rs)
    (hcommitted : Committed Holds log log' rs record)
    (hlast : ∀ r ∈ rs, r.sequence.number ≤ record.sequence.number)
    (hnext : record.sequence.number ≤ log.nextSequence.number) :
    log'.Sound Holds (rs ++ [record]) where
  toStored := hcommitted.stored
  ascending := List.pairwise_append.mpr ⟨h.ascending, List.pairwise_singleton _ _,
    fun r hr r' hr' => List.mem_singleton.mp hr' ▸ hlast r hr⟩
  sequence_le r hr := by
    rw [hcommitted.sequence_eq]
    rcases List.mem_append.mp hr with hr | hr
    · exact h.sequence_le r hr
    · exact List.mem_singleton.mp hr ▸ hnext
  tracks := by
    rw [hcommitted.index_eq]
    exact tracks_append h.tracks h.ascending hlast

omit [Store σ] in
theorem TakenBack.sound {log' : Log σ} (h : log.Sound Holds rs)
    (htaken : TakenBack Holds log log' rs) : log'.Sound Holds rs where
  toStored := htaken.stored
  ascending := h.ascending
  sequence_le r hr := by
    rw [htaken.sequence_eq]
    exact h.sequence_le r hr
  tracks := by
    rw [htaken.index_eq]
    exact h.tracks

end Dataflow.Log

import Dataflow.Proofs.Log.KeyValues
import Dataflow.Proofs.Log.Reading
import Dataflow.Proofs.Log.Recovery
import Dataflow.Proofs.Store.Securing

/-!
# How writes end on a store that may fail

Whichever calls of the store fail, a write ends in one of three ways. It counts; it is refused and
has left nothing; or its record could not be cut off again and stays behind, although the write does
not count. Secured bytes stay secured in all of them.

* `Log.run`: a run of calls, and the records whose writes it acknowledged.
* `Log.stage`, `Log.conclude`: a write up to its barrier, and from there on; `Log.write_eq` says
  that these make up a write.
* `Log.Counted`, `Log.Refused`: what a write leaves.
* `Log.write_cases`: there is no other way for a write to end.
* `Log.barrier_call_cases`, `Log.open_secure`: the other calls that write.
-/

namespace Dataflow.Log

variable {σ : Type} [Store σ]

/-! ## Runs of calls -/

/-- The record whose write an answer acknowledges. -/
def Call.acknowledged? : Call → Answer → Option Record
  | .write key value durability allowReplace, .written (.ok sequence) =>
    some ⟨key, value, durability, allowReplace, sequence⟩
  | _, _ => none

/-- The records that a run of calls acknowledges, in order, and the log after it. -/
def run (log : Log σ) : List Call → List Record × Log σ
  | [] => ([], log)
  | c :: calls =>
    let (answer, log) := log.call c
    let (acknowledged, log) := log.run calls
    ((c.acknowledged? answer).toList ++ acknowledged, log)

/-! ## The middle of a write -/

/-- A write up to its barrier: the record and the offset at which it was appended. -/
def stage (log : Log σ) (key value : Bytes) (durability : Durability) (allowReplace : Bool) :
    Except (Failure Error) (Record × Nat) × Log σ :=
  if log.poisoned then
    (.error (.reported poisonedError), log)
  else
    match log.permit key allowReplace with
    | (.error e, log) => (.error (.reported e), log)
    | (.ok (), log) =>
      let record : Record := ⟨key, value, durability, allowReplace, log.nextSequence⟩
      let next := log.nextSequence.next
      match record.encode with
      | .error e => (.error (.reported e), log)
      | .ok frame =>
        match Store.append log.store frame with
        | (.error .brokenOff, s) =>
          (.error .brokenOff, { log with store := s, nextSequence := next, poisoned := true })
        | (.error (.reported e), s) =>
          (.error (.reported (.io .appendRecord e)), { log with store := s, nextSequence := next })
        | (.ok offset, s) =>
          (.ok (record, offset),
            { log with
              store := s
              nextSequence := next
              unflushedRecords := log.unflushedRecords + 1 })

/-- A write from its barrier on. -/
def conclude (log : Log σ) (record : Record) (offset : Nat) :
    Except (Failure Error) SequenceNumber × Log σ :=
  match log.pass (log.settings.flushPolicy.barrier record.durability log.unflushedRecords) with
  | (.error e, log) => (.error (.reported e), log.retract offset)
  | (.ok (), log) =>
    (.ok record.sequence,
      log.acknowledge record.key ⟨offset, record.frame.length, record.sequence⟩)

theorem write_eq (log : Log σ) (key value : Bytes) (durability : Durability)
    (allowReplace : Bool) :
    log.write key value durability allowReplace =
      match log.stage key value durability allowReplace with
      | (.error e, log) => (.error e, log)
      | (.ok (record, offset), log) => log.conclude record offset := by
  unfold write stage
  split
  · rfl
  · rcases log.permit key allowReplace with ⟨_ | _, log₁⟩
    · rfl
    · dsimp only
      cases hencode : Record.encode ⟨key, value, durability, allowReplace, log₁.nextSequence⟩ with
      | error e => rfl
      | ok frame =>
        obtain ⟨-, -, rfl⟩ := Record.encode_eq_ok_iff.mp hencode
        unfold commit
        dsimp only
        rcases Store.append log₁.store _ with ⟨(_ | _) | _, s⟩ <;> rfl

/-! ## Barriers -/

/-- After a call, a store holds some bytes, and what was secured of them still is. -/
structure Kept (Holds Secure : σ → Bytes → Prop) (b : Bytes) (s s' : σ) : Prop where
  holds : Holds s' b
  secure : ∀ p, p <+: b → Secure s p → Secure s' p

section

variable {Holds Secure : σ → Bytes → Prop} {log : Log σ} {b : Bytes}

omit [Store σ] in
theorem Kept.refl {s : σ} (hs : Holds s b) : Kept Holds Secure b s s := ⟨hs, fun _ _ => id⟩

theorem Kept.reads (laws : Store.SecureLaws Holds Secure) (b : Bytes) (s : σ) :
    Store.ReadsKeep (Kept Holds Secure b s) := by
  intro s₁ s₂ offset length result h hread
  exact ⟨laws.readAt_keeps b h.holds hread,
    fun p hp hsecure => laws.readAt_secure p (h.secure p hp hsecure) hread⟩

theorem flushStore_cases (laws : Store.SecureLaws Holds Secure) (hs : Holds log.store b) :
    ∃ s', Kept Holds Secure b log.store s' ∧
      ((log.flushStore = (.ok (), { log with store := s', unflushedRecords := 0 }) ∧
          (Store.FlushSecures Holds Secure → Secure s' b)) ∨
        ∃ e, log.flushStore = (.error e, { log with store := s' })) := by
  rcases hflush : Store.flush log.store with ⟨result, s'⟩
  refine ⟨s', ⟨laws.flush_keeps hs hflush,
    fun p hp hsecure => laws.flush_secure hs hsecure hp hflush⟩, ?_⟩
  unfold flushStore
  rw [hflush]
  cases result with
  | error e => exact .inr ⟨_, rfl⟩
  | ok _ => exact .inl ⟨rfl, fun hsecures => hsecures hs hflush⟩

theorem syncStore_cases (laws : Store.SecureLaws Holds Secure) (hs : Holds log.store b)
    (operation : Operation) :
    ∃ s', Kept Holds Secure b log.store s' ∧
      ((log.syncStore operation = (.ok (), { log with store := s', unflushedRecords := 0 }) ∧
          Secure s' b) ∨
        ∃ e, log.syncStore operation = (.error e, { log with store := s' })) := by
  rcases hsync : Store.sync log.store with ⟨result, s'⟩
  refine ⟨s', ⟨laws.sync_keeps hs hsync,
    fun p hp hsecure => laws.sync_secure hs hsecure hp hsync⟩, ?_⟩
  unfold syncStore
  rw [hsync]
  cases result with
  | error e => exact .inr ⟨_, rfl⟩
  | ok _ => exact .inl ⟨rfl, laws.sync_secures hs hsync⟩

/-- A flush or a sync that is asked for may have flushed everything; it changes nothing else. -/
theorem barrier_call_cases (laws : Store.SecureLaws Holds Secure) (hs : Holds log.store b)
    {c : Call} (hc : c = .flush ∨ c = .sync) :
    ∃ s', Kept Holds Secure b log.store s' ∧
      ((log.call c).2 = { log with store := s' } ∨
        (log.call c).2 = { log with store := s', unflushedRecords := 0 } ∧
          (Store.FlushSecures Holds Secure → Secure s' b)) := by
  by_cases hpoisoned : log.poisoned = true
  · refine ⟨log.store, .refl hs, .inl ?_⟩
    rcases hc with rfl | rfl
    · simp only [Log.call, Log.flush, if_pos hpoisoned]
    · simp only [Log.call, Log.sync, if_pos hpoisoned]
  · rcases hc with rfl | rfl
    · obtain ⟨s', hkept, ⟨hflush, hsecures⟩ | ⟨e, hflush⟩⟩ := flushStore_cases laws hs
      · exact ⟨s', hkept, .inr ⟨by simp only [Log.call, Log.flush, if_neg hpoisoned, hflush],
          hsecures⟩⟩
      · exact ⟨s', hkept, .inl (by simp only [Log.call, Log.flush, if_neg hpoisoned, hflush])⟩
    · obtain ⟨s', hkept, ⟨hsync, hsecures⟩ | ⟨e, hsync⟩⟩ := syncStore_cases laws hs .syncLog
      · exact ⟨s', hkept, .inr ⟨by simp only [Log.call, Log.sync, if_neg hpoisoned, hsync],
          fun _ => hsecures⟩⟩
      · exact ⟨s', hkept, .inl (by simp only [Log.call, Log.sync, if_neg hpoisoned, hsync])⟩

/-- A barrier that is passed. -/
structure Passed (Holds Secure : σ → Bytes → Prop) (barrier : Barrier) (b : Bytes)
    (waiting : Nat) (s : σ) (unflushed : Nat) : Prop where
  none : barrier = .none → unflushed = waiting
  emptied : barrier ≠ .none → unflushed = 0
  flush : barrier = .flush → Store.FlushSecures Holds Secure → Secure s b
  sync : barrier = .sync → Secure s b

theorem pass_cases (laws : Store.SecureLaws Holds Secure) (hs : Holds log.store b)
    (barrier : Barrier) :
    ∃ s', Kept Holds Secure b log.store s' ∧
      ((∃ unflushed, log.pass barrier =
            (.ok (), { log with store := s', unflushedRecords := unflushed }) ∧
          Passed Holds Secure barrier b log.unflushedRecords s' unflushed) ∨
        ∃ e, log.pass barrier = (.error e, { log with store := s' })) := by
  cases barrier with
  | none =>
    exact ⟨log.store, .refl hs,
      .inl ⟨_, rfl, fun _ => rfl, fun hne => absurd rfl hne, nofun, nofun⟩⟩
  | flush =>
    obtain ⟨s', hkept, ⟨hflush, hsecures⟩ | hflush⟩ := flushStore_cases laws hs
    · exact ⟨s', hkept, .inl ⟨0, hflush, nofun, fun _ => rfl, fun _ => hsecures, nofun⟩⟩
    · exact ⟨s', hkept, .inr hflush⟩
  | sync =>
    obtain ⟨s', hkept, ⟨hsync, hsecures⟩ | hsync⟩ := syncStore_cases laws hs .syncRecord
    · exact ⟨s', hkept, .inl ⟨0, hsync, nofun, fun _ => rfl, nofun, fun _ => hsecures⟩⟩
    · exact ⟨s', hkept, .inr hsync⟩

end

/-! ## Writes -/

section

variable {Holds Secure : σ → Bytes → Prop} {log log' : Log σ} {rs : List Record}
  {record : Record}

/-- A write that does not count. Its record is not in the store, or it could not be cut off. -/
structure Refused (Holds Secure : σ → Bytes → Prop) (rs : List Record) (record : Record)
    (log log' : Log σ) : Prop where
  settings_eq : log'.settings = log.settings
  index_eq : log'.index = log.index
  unflushed_eq : log'.unflushedRecords = log.unflushedRecords
  poisoned : log'.poisoned = log.poisoned ∨ Store.BreaksOff Holds
  sequence : log'.nextSequence = log.nextSequence ∨ log'.nextSequence = log.nextSequence.next
  left : Holds log'.store (Record.logBytes rs) ∨
    record.Fits ∧ log'.nextSequence = log.nextSequence.next ∧
      Holds log'.store (Record.logBytes (rs ++ [record]))
  secure : ∀ p, p <+: Record.logBytes rs → Secure log.store p → Secure log'.store p

/-- A write that counts. -/
structure Counted (Holds Secure : σ → Bytes → Prop) (rs : List Record) (record : Record)
    (log log' : Log σ) : Prop where
  fits : record.Fits
  holds : Holds log'.store (Record.logBytes (rs ++ [record]))
  settings_eq : log'.settings = log.settings
  index_eq : log'.index = (log.index.insert record.key
    ⟨(Record.logBytes rs).length, record.frame.length, record.sequence⟩).2
  sequence_eq : log'.nextSequence = log.nextSequence.next
  poisoned_eq : log'.poisoned = log.poisoned
  secure : ∀ p, p <+: Record.logBytes rs → Secure log.store p → Secure log'.store p
  passed : Passed Holds Secure
    (log.settings.flushPolicy.barrier record.durability (log.unflushedRecords + 1))
    (Record.logBytes (rs ++ [record])) (log.unflushedRecords + 1) log'.store log'.unflushedRecords

theorem Refused.sequence_fits (h : Refused Holds Secure rs record log log')
    (hsequence : log.nextSequence.number ≤ SequenceNumber.maxNumber) :
    log'.nextSequence.number ≤ SequenceNumber.maxNumber := by
  rcases h.sequence with hsame | hnext
  · rwa [hsame]
  · rw [hnext]
    exact next_fits _

theorem Refused.sequence_le (h : Refused Holds Secure rs record log log')
    (hsequence : log.nextSequence.number ≤ SequenceNumber.maxNumber) :
    log.nextSequence.number ≤ log'.nextSequence.number := by
  rcases h.sequence with hsame | hnext
  · exact Nat.le_of_eq (congrArg SequenceNumber.number hsame.symm)
  · rw [hnext]
    exact le_next hsequence

/-- A record that was appended, and whose barrier is next. -/
structure Staged (Holds Secure : σ → Bytes → Prop) (rs : List Record) (record : Record)
    (log log' : Log σ) : Prop where
  fits : record.Fits
  holds : Holds log'.store (Record.logBytes (rs ++ [record]))
  settings_eq : log'.settings = log.settings
  index_eq : log'.index = log.index
  unflushed_eq : log'.unflushedRecords = log.unflushedRecords + 1
  sequence_eq : log'.nextSequence = log.nextSequence.next
  poisoned_eq : log'.poisoned = log.poisoned
  secure : ∀ p, p <+: Record.logBytes rs → Secure log.store p → Secure log'.store p

theorem index_scan (log : Log σ) (key : Bytes) : (log.scan key).2.index = log.index := by
  unfold scan
  split <;> rfl

theorem index_permit (log : Log σ) (key : Bytes) (allowReplace : Bool) :
    (log.permit key allowReplace).2.index = log.index := by
  have hscan := log.index_scan key
  have hhasKey : (log.hasKey key).2.index = log.index := by
    unfold hasKey
    split
    · rfl
    · split
      · split <;> rename_i h <;> rw [h] at hscan <;> exact hscan
      · rfl
  unfold permit
  split
  · rfl
  · split <;> rename_i h <;> rw [h] at hhasKey <;> exact hhasKey

/-- A write comes to its barrier, or it is refused before and has left nothing. -/
theorem stage_cases (laws : Store.SecureLaws Holds Secure)
    (hs : Holds log.store (Record.logBytes rs))
    (hsequence : log.nextSequence.number ≤ SequenceNumber.maxNumber) (key value : Bytes)
    (durability : Durability) (allowReplace : Bool) :
    (∃ e log', log.stage key value durability allowReplace = (.error e, log') ∧
        Refused Holds Secure rs ⟨key, value, durability, allowReplace, log.nextSequence⟩ log log' ∧
        Holds log'.store (Record.logBytes rs)) ∨
      ∃ log', log.stage key value durability allowReplace =
          (.ok (⟨key, value, durability, allowReplace, log.nextSequence⟩,
            (Record.logBytes rs).length), log') ∧
        Staged Holds Secure rs ⟨key, value, durability, allowReplace, log.nextSequence⟩ log
          log' := by
  generalize hb : Record.logBytes rs = b at hs
  have hpermit := permit_undisturbed (Kept.reads laws b log.store) log key allowReplace
  have hindex := index_permit log key allowReplace
  unfold stage
  split
  · exact .inl ⟨_, log, rfl,
      ⟨rfl, rfl, rfl, .inl rfl, .inl rfl, .inl (hb ▸ hs), fun _ _ => id⟩, hb ▸ hs⟩
  · rcases hresult : log.permit key allowReplace with ⟨result, log₁⟩
    rw [hresult] at hpermit hindex
    have hkept₁ := hpermit.store (.refl hs)
    have hrefused : Refused Holds Secure rs
        ⟨key, value, durability, allowReplace, log.nextSequence⟩ log log₁ := {
      settings_eq := hpermit.settings_eq
      index_eq := hindex
      unflushed_eq := hpermit.unflushed_eq
      poisoned := .inl hpermit.poisoned_eq
      sequence := .inl hpermit.sequence_eq
      left := .inl (hb ▸ hkept₁.holds)
      secure := hb ▸ hkept₁.secure }
    cases result with
    | error e => exact .inl ⟨_, log₁, rfl, hrefused, hb ▸ hkept₁.holds⟩
    | ok _ =>
      dsimp only at hpermit hindex ⊢
      rw [hpermit.sequence_eq]
      generalize hrecord : Record.mk key value durability allowReplace log.nextSequence = record
      cases hencode : record.encode with
      | error e => exact .inl ⟨_, log₁, rfl, hrecord ▸ hrefused, hb ▸ hkept₁.holds⟩
      | ok frame =>
        obtain ⟨hkey, hvalue, rfl⟩ := Record.encode_eq_ok_iff.mp hencode
        have hfits : record.Fits := ⟨hkey, hvalue, hrecord ▸ hsequence⟩
        rcases happend : Store.append log₁.store record.frame with ⟨result, s₁⟩
        have hsecure (p : Bytes) (hp : p <+: b) (h : Secure log.store p) : Secure s₁ p :=
          laws.append_secure (hkept₁.secure p hp h) happend
        dsimp only
        rw [happend]
        cases result with
        | error e =>
          have hs₁ := laws.append_error hkept₁.holds happend
          have hrefused₁ (poisoned : Bool)
              (hpoisoned : poisoned = log.poisoned ∨ Store.BreaksOff Holds) :
              Refused Holds Secure rs record log
                { log₁ with
                  store := s₁
                  nextSequence := log.nextSequence.next
                  poisoned := poisoned } := {
            settings_eq := hpermit.settings_eq
            index_eq := hindex
            unflushed_eq := hpermit.unflushed_eq
            poisoned := hpoisoned
            sequence := .inr rfl
            left := .inl (hb ▸ hs₁)
            secure := hb ▸ hsecure }
          cases e with
          | brokenOff =>
            have hbreaks : Store.BreaksOff Holds :=
              ⟨log₁.store, b, record.frame, s₁, hkept₁.holds, happend⟩
            exact .inl ⟨_, _, rfl, hrefused₁ true (.inr hbreaks), hb ▸ hs₁⟩
          | reported e =>
            exact .inl ⟨_, _, rfl, hrefused₁ log₁.poisoned (.inl hpermit.poisoned_eq), hb ▸ hs₁⟩
        | ok offset =>
          obtain ⟨rfl, hs₁⟩ := laws.append_ok hkept₁.holds happend
          refine .inr ⟨_, rfl, ?_⟩
          constructor
          case fits => exact hfits
          case holds =>
            rw [Record.logBytes_append, hb, Record.logBytes_cons, Record.logBytes_nil,
              List.append_nil]
            exact hs₁
          case settings_eq => exact hpermit.settings_eq
          case index_eq => exact hindex
          case unflushed_eq => exact congrArg (· + 1) hpermit.unflushed_eq
          case sequence_eq => rfl
          case poisoned_eq => exact hpermit.poisoned_eq
          case secure => exact hb ▸ hsecure

/-- From its barrier on, a write counts, or it is taken back if the store lets it. -/
theorem conclude_cases (laws : Store.SecureLaws Holds Secure)
    (h : Staged Holds Secure rs record log log') :
    (∃ log'', log'.conclude record (Record.logBytes rs).length = (.ok record.sequence, log'') ∧
        Counted Holds Secure rs record log log'') ∨
      ∃ e log'', log'.conclude record (Record.logBytes rs).length = (.error e, log'') ∧
        Refused Holds Secure rs record log log'' := by
  have hbytes : Record.logBytes rs <+: Record.logBytes (rs ++ [record]) :=
    Record.logBytes_of_isPrefix (List.prefix_append _ _)
  unfold conclude
  obtain ⟨s₁, hkept₁, ⟨unflushed, hpass, hpassed⟩ | ⟨e, hpass⟩⟩ := pass_cases laws h.holds
    (log'.settings.flushPolicy.barrier record.durability log'.unflushedRecords)
  · rw [hpass]
    refine .inl ⟨_, rfl, ?_⟩
    rw [h.settings_eq, h.unflushed_eq] at hpassed
    constructor
    case fits => exact h.fits
    case holds => exact hkept₁.holds
    case settings_eq => exact h.settings_eq
    case index_eq =>
      show (log'.index.insert _ _).2 = _
      rw [h.index_eq]
    case sequence_eq => exact h.sequence_eq
    case poisoned_eq => exact h.poisoned_eq
    case secure =>
      exact fun p hp hsecure => hkept₁.secure p (hp.trans hbytes) (h.secure p hp hsecure)
    case passed => exact hpassed
  · rw [hpass]
    refine .inr ⟨_, _, rfl, ?_⟩
    rcases htruncate : Store.truncate s₁ (Record.logBytes rs).length with ⟨result, s₂⟩
    have hs₂ : s₂ = (Store.truncate s₁ (Record.logBytes rs).length).2 := by rw [htruncate]
    constructor
    case settings_eq => exact h.settings_eq
    case index_eq => exact h.index_eq
    case unflushed_eq =>
      show log'.unflushedRecords - 1 = _
      rw [h.unflushed_eq, Nat.add_sub_cancel]
    case poisoned => exact .inl h.poisoned_eq
    case sequence => exact .inr h.sequence_eq
    case left =>
      show Holds (Store.truncate s₁ _).2 _ ∨ _ ∧ _ ∧ Holds (Store.truncate s₁ _).2 _
      rw [← hs₂]
      cases result with
      | error e => exact .inr ⟨h.fits, h.sequence_eq, laws.truncate_error hkept₁.holds htruncate⟩
      | ok _ =>
        have hcut := laws.truncate_ok hkept₁.holds htruncate
        rw [Record.logBytes_append, List.take_left] at hcut
        exact .inl hcut
    case secure =>
      intro p hp hsecure
      show Secure (Store.truncate s₁ _).2 p
      rw [← hs₂]
      have hkept := hkept₁.secure p (hp.trans hbytes) (h.secure p hp hsecure)
      exact laws.truncate_secure hkept hp.length_le htruncate

/-- A write counts, or it is refused. -/
theorem write_cases (laws : Store.SecureLaws Holds Secure)
    (hs : Holds log.store (Record.logBytes rs))
    (hsequence : log.nextSequence.number ≤ SequenceNumber.maxNumber) (key value : Bytes)
    (durability : Durability) (allowReplace : Bool) :
    (∃ log', log.write key value durability allowReplace = (.ok log.nextSequence, log') ∧
        Counted Holds Secure rs ⟨key, value, durability, allowReplace, log.nextSequence⟩ log log') ∨
      ∃ e log', log.write key value durability allowReplace = (.error e, log') ∧
        Refused Holds Secure rs ⟨key, value, durability, allowReplace, log.nextSequence⟩
          log log' := by
  rw [write_eq]
  rcases stage_cases laws hs hsequence key value durability allowReplace with
    ⟨e, log₁, hstage, hrefused, -⟩ | ⟨log₁, hstage, hstaged⟩
  · rw [hstage]
    exact .inr ⟨e, log₁, rfl, hrefused⟩
  · rw [hstage]
    exact conclude_cases laws hstaged

/-! ## Opening -/

/-- An opened log has counted what was cut off from its store, if anything was. -/
theorem open_cases {settings : LogSettings} {s : σ} (h : Log.open settings s = .ok log) :
    settings.validate = .ok () ∧ log.settings = settings ∧ log.unflushedRecords = 0 ∧
      ∃ found s₁, Frame.survey s = (found, s₁) ∧
        (log.store = s₁ ∨ ∃ offset, Store.truncate s₁ offset = (.ok (), log.store) ∧
          log.bytesTruncated = Store.size s - offset) := by
  unfold Log.open at h
  split at h
  · cases h
  · rename_i hvalid
    rcases hsurvey : Frame.survey s with ⟨⟨frames, stop⟩, s₁⟩
    rw [hsurvey] at h
    cases stop with
    | none =>
      cases h
      exact ⟨hvalid, rfl, rfl, _, s₁, rfl, .inl rfl⟩
    | some stop =>
      dsimp only at h
      split at h
      · split at h
        · cases h
        · rename_i s₂ htruncate
          cases h
          exact ⟨hvalid, rfl, rfl, _, s₁, rfl, .inr ⟨_, htruncate, rfl⟩⟩
      · cases h

/-- What was secured of the records that an opening keeps stays secured. -/
theorem open_secure (laws : Store.SecureLaws Holds Secure) {settings : LogSettings} {s : σ}
    {image p : Bytes} (hs : Holds s image) (h : Log.open settings s = .ok log)
    (hrecovered : Recovered Holds image rs log) (hp : p <+: Record.logBytes rs)
    (hsecure : Secure s p) : Secure log.store p := by
  obtain ⟨-, -, -, found, s₁, hsurvey, hstore⟩ := open_cases h
  have hsecure₁ : Secure s₁ p := Frame.surveyFrom_keeps (laws.readAt_secure p) hsecure hsurvey
  rcases hstore with hstore | ⟨offset, htruncate, htruncated⟩
  · rwa [hstore]
  · obtain ⟨counts, hcounts, -, hsum, -⟩ := hrecovered.stats
    have hoffset : (Record.logBytes rs).length ≤ offset := by
      unfold stats at hcounts
      split at hcounts
      · cases hcounts
      · cases hcounts
        dsimp only at hsum
        rw [htruncated, laws.size_eq hs, laws.size_eq hrecovered.holds] at hsum
        have hle := hrecovered.longestRun.isPrefix.length_le
        omega
    exact laws.truncate_secure hsecure₁ (Nat.le_trans hp.length_le hoffset) htruncate

end

end Dataflow.Log

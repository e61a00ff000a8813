import Mathlib.Algebra.Order.Group.Multiset
import Dataflow.Proofs.Log.Durability
import Dataflow.Proofs.Log.Outcomes

/-!
# How much a crash may cost

A log whose policy flushes by itself loses few acknowledged records in a crash of the process: none
if it flushes after every record, and fewer than a period has if it flushes periodically. The log
counts the records that wait for a flush, and it never counts too few, whatever calls of the store
fail.

* `FlushPolicy.period?`: after how many records a policy flushes.
* `Record.missing`: how many records an image lacks.
* `Log.Bounded`, `Log.Bounded.call`: the invariant, and that every call keeps it.
* `Log.run_lossBound`: the bound, after any run of calls.
-/

namespace Dataflow

/-! ## Periods -/

/-- A policy that flushes by itself does so after this number of records. -/
def FlushPolicy.period? : FlushPolicy → Option Nat
  | .noFlush => none
  | .alwaysFlush => some 1
  | .periodic records => some records

/-- A record without a barrier does not complete a period. -/
theorem FlushPolicy.lt_of_barrier_eq_none {policy : FlushPolicy} {period waiting : Nat}
    {durability : Durability} (hperiod : policy.period? = some period)
    (h : policy.barrier durability waiting = .none) : waiting < period := by
  cases durability with
  | persist => cases h
  | transient =>
    cases policy with
    | noFlush => cases hperiod
    | alwaysFlush => cases h
    | periodic records =>
      cases hperiod
      by_contra hge
      rw [FlushPolicy.barrier, if_pos (Nat.le_of_not_lt hge)] at h
      cases h

/-- A log refuses a period without records. -/
theorem LogSettings.period_pos {settings : LogSettings} {period : Nat}
    (hvalid : settings.validate = .ok ())
    (hperiod : settings.flushPolicy.period? = some period) : 0 < period := by
  by_contra hzero
  obtain rfl : period = 0 := Nat.eq_zero_of_not_pos hzero
  have hpolicy : settings.flushPolicy = .periodic 0 := by
    cases hcase : settings.flushPolicy <;> rw [hcase] at hperiod <;> cases hperiod
    rfl
  unfold LogSettings.validate at hvalid
  split at hvalid
  · cases hvalid
  · cases hvalid

/-! ## Records that an image lacks -/

/-- The records that a log finds in an image. -/
def Record.found (image : Bytes) : List Record := Frame.records (MemoryStore.ofBytes image)

/-- How many of some records are not found in an image, each as often as it occurs. -/
def Record.missing (rs : List Record) (image : Bytes) : Nat := (rs.diff (found image)).length

theorem Record.found_eq {image : Bytes} {rs : List Record} (h : Recoverable image rs) :
    found image = rs := by
  obtain ⟨hfits, rest, rfl, hrest⟩ := h
  obtain ⟨s', stop, hsurvey, -⟩ := Frame.survey_eq MemoryStore.reliable.toReadable
    (s := .ofBytes (logBytes rs ++ rest)) (Image.toBytes_ofBytes _) hfits hrest
  rw [found, Frame.records, hsurvey]
  exact PlacedFrame.records_layout 0 rs

/-- Records that lie in the first part of an image are not missing. -/
theorem Record.missing_append_le {early late safe : List Record} {image : Bytes}
    (hfits : ∀ r ∈ safe, r.Fits) (hsafe : logBytes safe <+: image) (hearly : early.Sublist safe) :
    missing (early ++ late) image ≤ late.length := by
  obtain ⟨rs, hrs⟩ := exists_recoverable image
  have hfound : early.Sublist rs := hearly.trans (hrs.prefix_of_run hfits hsafe).sublist
  have hle : (early : Multiset Record) ≤ rs := hfound.subperm
  have hdiff : (((early ++ late).diff rs : List Record) : Multiset Record) ≤ late := by
    rw [← Multiset.coe_sub, ← Multiset.coe_add, tsub_le_iff_right, add_comm]
    exact Multiset.add_le_add_left hle
  rw [missing, found_eq hrs]
  exact Multiset.card_le_card hdiff

/-! ## The invariant -/

namespace Log

variable {σ : Type} {Holds : σ → Bytes → Prop} {crashed : σ → Bytes}

/-- A store holds the records `rs`, and a crash would leave the first of them, `safe`, at least.
Acknowledged were the records `early` and `late`. The early ones are safe; the late ones wait for a
flush, and the log has counted them all. -/
structure Bounded (Holds : σ → Bytes → Prop) (crashed : σ → Bytes) (period : Nat) (log : Log σ)
    (rs safe early late : List Record) : Prop where
  period_eq : log.settings.flushPolicy.period? = some period
  sequence_fits : log.nextSequence.number ≤ SequenceNumber.maxNumber
  holds : Holds log.store (Record.logBytes rs)
  fits : ∀ r ∈ rs, r.Fits
  flushed : Record.logBytes safe <+: crashed log.store
  safe_prefix : safe <+: rs
  early_sublist : early.Sublist safe
  stored : (early ++ late).Sublist rs
  late_le : late.length ≤ log.unflushedRecords
  unflushed_lt : log.unflushedRecords < period

variable {period : Nat} {log log' : Log σ} {rs safe early late : List Record}

theorem Bounded.missing_le (h : Bounded Holds crashed period log rs safe early late) :
    Record.missing (early ++ late) (crashed log.store) ≤ log.unflushedRecords := by
  have hfits : ∀ r ∈ safe, r.Fits := fun r hr => h.fits r (h.safe_prefix.subset hr)
  exact Nat.le_trans (Record.missing_append_le hfits h.flushed h.early_sublist) h.late_le

/-- Reading a log and barriers that are not passed change nothing of all this. -/
theorem Bounded.of_kept (h : Bounded Holds crashed period log rs safe early late)
    (hkept : Kept Holds (fun s p => p <+: crashed s) (Record.logBytes rs) log.store log'.store)
    (hsettings : log'.settings = log.settings) (hsequence : log'.nextSequence = log.nextSequence)
    (hunflushed : log'.unflushedRecords = log.unflushedRecords) :
    Bounded Holds crashed period log' rs safe early late where
  period_eq := hsettings ▸ h.period_eq
  sequence_fits := hsequence ▸ h.sequence_fits
  holds := hkept.holds
  fits := h.fits
  flushed := hkept.secure _ (Record.logBytes_of_isPrefix h.safe_prefix) h.flushed
  safe_prefix := h.safe_prefix
  early_sublist := h.early_sublist
  stored := h.stored
  late_le := hunflushed ▸ h.late_le
  unflushed_lt := hunflushed ▸ h.unflushed_lt

theorem Bounded.of_undisturbed (h : Bounded Holds crashed period log rs safe early late)
    (hlog : log.Undisturbed
      (Kept Holds (fun s p => p <+: crashed s) (Record.logBytes rs) log.store) log') :
    Bounded Holds crashed period log' rs safe early late :=
  h.of_kept (hlog.store (.refl h.holds)) hlog.settings_eq hlog.sequence_eq hlog.unflushed_eq

/-- Once everything is flushed, no record waits any longer. -/
theorem Bounded.of_flushed (h : Bounded Holds crashed period log rs safe early late)
    (hkept : Kept Holds (fun s p => p <+: crashed s) (Record.logBytes rs) log.store log'.store)
    (hsettings : log'.settings = log.settings) (hsequence : log'.nextSequence = log.nextSequence)
    (hunflushed : log'.unflushedRecords = 0)
    (hflushed : Record.logBytes rs <+: crashed log'.store) :
    Bounded Holds crashed period log' rs rs (early ++ late) [] where
  period_eq := hsettings ▸ h.period_eq
  sequence_fits := hsequence ▸ h.sequence_fits
  holds := hkept.holds
  fits := h.fits
  flushed := hflushed
  safe_prefix := List.prefix_refl rs
  early_sublist := h.stored
  stored := by
    rw [List.append_nil]
    exact h.stored
  late_le := Nat.zero_le _
  unflushed_lt := by
    rw [hunflushed]
    exact Nat.zero_lt_of_lt h.unflushed_lt

/-! ## Calls -/

variable [Store σ]

/-- A write that is refused leaves what was acknowledged before, though maybe its own record too. -/
theorem Bounded.refused (h : Bounded Holds crashed period log rs safe early late)
    {record : Record} (hrefused : Refused Holds (fun s p => p <+: crashed s) rs record log log') :
    ∃ rs', Bounded Holds crashed period log' rs' safe early late := by
  have hflushed : Record.logBytes safe <+: crashed log'.store :=
    hrefused.secure _ (Record.logBytes_of_isPrefix h.safe_prefix) h.flushed
  have hbounded (rs' : List Record) (hrs' : rs <+: rs')
      (hholds : Holds log'.store (Record.logBytes rs')) (hfits : ∀ r ∈ rs', r.Fits) :
      Bounded Holds crashed period log' rs' safe early late := {
    period_eq := hrefused.settings_eq ▸ h.period_eq
    sequence_fits := hrefused.sequence_fits h.sequence_fits
    holds := hholds
    fits := hfits
    flushed := hflushed
    safe_prefix := h.safe_prefix.trans hrs'
    early_sublist := h.early_sublist
    stored := h.stored.trans hrs'.sublist
    late_le := hrefused.unflushed_eq ▸ h.late_le
    unflushed_lt := hrefused.unflushed_eq ▸ h.unflushed_lt }
  rcases hrefused.left with hleft | ⟨hfits, -, hleft⟩
  · exact ⟨rs, hbounded rs (List.prefix_refl rs) hleft h.fits⟩
  · refine ⟨rs ++ [record], hbounded _ (List.prefix_append _ _) hleft ?_⟩
    exact List.forall_mem_append.mpr ⟨h.fits, List.forall_mem_singleton.mpr hfits⟩

/-- A write that counts waits for a flush if it has no barrier; else everything is flushed. -/
theorem Bounded.counted (laws : Store.CrashLaws Holds crashed)
    (h : Bounded Holds crashed period log rs safe early late) {record : Record}
    (hcounted : Counted Holds (fun s p => p <+: crashed s) rs record log log') :
    ∃ safe' early' late', early' ++ late' = early ++ late ++ [record] ∧
      Bounded Holds crashed period log' (rs ++ [record]) safe' early' late' := by
  have hpassed := hcounted.passed
  have hfits : ∀ r ∈ rs ++ [record], r.Fits :=
    List.forall_mem_append.mpr ⟨h.fits, List.forall_mem_singleton.mpr hcounted.fits⟩
  have hstored : (early ++ late ++ [record]).Sublist (rs ++ [record]) :=
    h.stored.append_right [record]
  have hsequence : log'.nextSequence.number ≤ SequenceNumber.maxNumber := by
    rw [hcounted.sequence_eq]
    exact next_fits _
  generalize hbarrier : FlushPolicy.barrier _ _ _ = barrier at hpassed
  by_cases hnone : barrier = .none
  · have hwaiting := FlushPolicy.lt_of_barrier_eq_none h.period_eq (hbarrier.trans hnone)
    have hunflushed := hpassed.none hnone
    refine ⟨safe, early, late ++ [record], (List.append_assoc _ _ _).symm, ?_⟩
    constructor
    case period_eq => exact hcounted.settings_eq ▸ h.period_eq
    case sequence_fits => exact hsequence
    case holds => exact hcounted.holds
    case fits => exact hfits
    case flushed =>
      exact hcounted.secure _ (Record.logBytes_of_isPrefix h.safe_prefix) h.flushed
    case safe_prefix => exact h.safe_prefix.trans (List.prefix_append _ _)
    case early_sublist => exact h.early_sublist
    case stored =>
      rw [← List.append_assoc]
      exact hstored
    case late_le =>
      rw [hunflushed, List.length_append]
      exact Nat.succ_le_succ h.late_le
    case unflushed_lt =>
      rw [hunflushed]
      exact hwaiting
  · have hflushed : Record.logBytes (rs ++ [record]) <+: crashed log'.store := by
      cases barrier with
      | none => exact absurd rfl hnone
      | flush => exact hpassed.flush rfl laws.flush_secures
      | sync => exact hpassed.sync rfl
    have hunflushed := hpassed.emptied hnone
    refine ⟨rs ++ [record], early ++ late ++ [record], [], List.append_nil _, ?_⟩
    constructor
    case period_eq => exact hcounted.settings_eq ▸ h.period_eq
    case sequence_fits => exact hsequence
    case holds => exact hcounted.holds
    case fits => exact hfits
    case flushed => exact hflushed
    case safe_prefix => exact List.prefix_refl _
    case early_sublist => exact hstored
    case stored =>
      rw [List.append_nil]
      exact hstored
    case late_le => exact Nat.zero_le _
    case unflushed_lt =>
      rw [hunflushed]
      exact Nat.zero_lt_of_lt h.unflushed_lt

/-- Every call keeps the invariant, whether or not it succeeds. -/
theorem Bounded.call (laws : Store.CrashLaws Holds crashed)
    (h : Bounded Holds crashed period log rs safe early late) (c : Call) :
    ∃ rs' safe' early' late',
      early' ++ late' = early ++ late ++ (c.acknowledged? (log.call c).1).toList ∧
      Bounded Holds crashed period (log.call c).2 rs' safe' early' late' := by
  by_cases hbarrier : c = .flush ∨ c = .sync
  · have hnone : c.acknowledged? (log.call c).1 = none := by
      rcases hbarrier with rfl | rfl <;> rfl
    rw [hnone]
    obtain ⟨s', hkept, hsame | ⟨hemptied, hsecures⟩⟩ :=
      barrier_call_cases laws.toSecureLaws h.holds hbarrier
    · rw [hsame]
      exact ⟨rs, safe, early, late, (List.append_nil _).symm, h.of_kept hkept rfl rfl rfl⟩
    · rw [hemptied]
      refine ⟨rs, rs, early ++ late, [], rfl, ?_⟩
      exact h.of_flushed hkept rfl rfl rfl (hsecures laws.flush_secures)
  have hreads := Kept.reads laws.toSecureLaws (Record.logBytes rs) log.store
  cases c with
  | write key value durability allowReplace =>
    rw [Log.call]
    rcases write_cases laws.toSecureLaws h.holds h.sequence_fits key value durability allowReplace
      with ⟨log', hwrite, hcounted⟩ | ⟨e, log', hwrite, hrefused⟩
    · rw [hwrite]
      obtain ⟨safe', early', late', heq, hbounded⟩ := h.counted laws hcounted
      exact ⟨_, safe', early', late', heq, hbounded⟩
    · rw [hwrite]
      obtain ⟨rs', hbounded⟩ := h.refused hrefused
      exact ⟨rs', safe, early, late, (List.append_nil _).symm, hbounded⟩
  | lookup key =>
    exact ⟨rs, safe, early, late, (List.append_nil _).symm,
      h.of_undisturbed (lookup_undisturbed hreads log key)⟩
  | contains key =>
    exact ⟨rs, safe, early, late, (List.append_nil _).symm,
      h.of_undisturbed (contains_undisturbed hreads log key)⟩
  | flush | sync => simp at hbarrier

theorem Bounded.run (laws : Store.CrashLaws Holds crashed)
    (h : Bounded Holds crashed period log rs safe early late) (calls : List Call) :
    ∃ rs' safe' early' late', early' ++ late' = early ++ late ++ (log.run calls).1 ∧
      Bounded Holds crashed period (log.run calls).2 rs' safe' early' late' := by
  induction calls generalizing log rs safe early late with
  | nil => exact ⟨rs, safe, early, late, (List.append_nil _).symm, h⟩
  | cons c calls ih =>
    obtain ⟨rs₁, safe₁, early₁, late₁, heq₁, h₁⟩ := h.call laws c
    obtain ⟨rs₂, safe₂, early₂, late₂, heq₂, h₂⟩ := ih h₁
    rw [heq₁, List.append_assoc] at heq₂
    exact ⟨rs₂, safe₂, early₂, late₂, heq₂, h₂⟩

/-! ## The bound -/

theorem Bounded.stage (laws : Store.CrashLaws Holds crashed)
    (h : Bounded Holds crashed period log rs safe early late) (key value : Bytes)
    (durability : Durability) (allowReplace : Bool) :
    (log.stage key value durability allowReplace).2.unflushedRecords ≤ period := by
  have hlt := h.unflushed_lt
  rcases stage_cases laws.toSecureLaws h.holds h.sequence_fits key value durability allowReplace
    with ⟨e, log', hstage, hrefused, -⟩ | ⟨log', hstage, hstaged⟩
  · rw [hstage, hrefused.unflushed_eq]
    exact Nat.le_of_lt hlt
  · rw [hstage, hstaged.unflushed_eq]
    exact hlt

/-- A log with a period starts with records that a crash leaves alone. -/
theorem bounded_open (laws : Store.CrashLaws Holds crashed) {settings : LogSettings}
    (hperiod : settings.flushPolicy.period? = some period) {s : σ} {image : Bytes}
    (hs : Holds s image) (hflushed : crashed s = image) (hopen : Log.open settings s = .ok log) :
    ∃ replayed, Recovered Holds image replayed log ∧
      Bounded Holds crashed period log replayed replayed replayed [] := by
  obtain ⟨replayed, hrecovered⟩ := open_recovered laws.toLaws hs hopen
  obtain ⟨hvalid, hsettings, hunflushed, -⟩ := open_cases hopen
  have hpos : 0 < period := LogSettings.period_pos hvalid hperiod
  refine ⟨replayed, hrecovered, ?_⟩
  constructor
  case period_eq => rwa [hsettings]
  case sequence_fits =>
    rw [hrecovered.replays]
    exact next_fits _
  case holds => exact hrecovered.holds
  case fits => exact hrecovered.longestRun.fits
  case flushed =>
    have hsecure : Record.logBytes replayed <+: crashed s := by
      rw [hflushed]
      exact hrecovered.longestRun.isPrefix
    exact open_secure laws.toSecureLaws hs hopen hrecovered (List.prefix_refl _) hsecure
  case safe_prefix => exact List.prefix_refl _
  case early_sublist => exact List.Sublist.refl _
  case stored =>
    rw [List.append_nil]
  case late_le => exact Nat.zero_le _
  case unflushed_lt => rwa [hunflushed]

/-- A crash would cost fewer acknowledged records than a period has. The log has counted as many at
least as waiting for a flush, and never more than a period has, not even within a write. -/
structure LossBound (crashed : σ → Bytes) (period : Nat) (acknowledged : List Record)
    (log : Log σ) : Prop where
  missing_le : Record.missing acknowledged (crashed log.store) ≤ log.unflushedRecords
  unflushed_lt : log.unflushedRecords < period
  staged_le : ∀ key value durability allowReplace,
    (log.stage key value durability allowReplace).2.unflushedRecords ≤ period

/-- A log with a period, opened on a store whose bytes are all flushed, bounds what a crash may
cost after any run of calls, whichever calls of the store fail. -/
theorem run_lossBound (laws : Store.CrashLaws Holds crashed) {settings : LogSettings}
    (hperiod : settings.flushPolicy.period? = some period) {s : σ} {image : Bytes}
    (hs : Holds s image) (hflushed : crashed s = image) (hopen : Log.open settings s = .ok log)
    (calls : List Call) :
    ∃ replayed, Recovered Holds image replayed log ∧
      LossBound crashed period (replayed ++ (log.run calls).1) (log.run calls).2 := by
  obtain ⟨replayed, hrecovered, hbounded⟩ := bounded_open laws hperiod hs hflushed hopen
  obtain ⟨rs, safe, early, late, heq, h⟩ := hbounded.run laws calls
  rw [List.append_nil] at heq
  refine ⟨replayed, hrecovered, ?_, h.unflushed_lt, h.stage laws⟩
  rw [← heq]
  exact h.missing_le

/-- A sync that fails after it has flushed, and a record that cannot be cut off. -/
theorem run_lossBound_erratic :
    let image := (Record.mk [1] [10] .persist true ⟨1⟩).frame
    let mishap (n : Nat) : Option Mishap :=
      if n = 2 then some (.halfWay (.injected .sync))
      else if n = 3 then some (.atOnce (.injected .truncate)) else none
    let s : ErraticStore MemoryStore := ⟨.ofBytes image, mishap, 0⟩
    let settings : LogSettings := { flushPolicy := .periodic 2 }
    let calls : List Call :=
      [.write [2] [20] .transient true, .write [3] [30] .persist true, .lookup [2],
        .write [3] [31] .transient true]
    FlushPolicy.period? settings.flushPolicy = some 2 ∧ s.inner.Holds image ∧
      s.inner.crash.data.toBytes = image ∧
      ∃ log, Log.open settings s = .ok log ∧ (log.run calls).1.length = 2 ∧
        ∃ replayed, Recovered (ErraticStore.Holds MemoryStore.Holds) image replayed log ∧
          LossBound (fun s => s.inner.crash.data.toBytes) 2 (replayed ++ (log.run calls).1)
            (log.run calls).2 := by
  intro image mishap s settings calls
  have hs : s.inner.Holds image := rfl
  have hflushed : s.inner.crash.data.toBytes = image := by decide +kernel
  have hrun : (match Log.open settings s with
      | .ok log => (log.run calls).1.length
      | .error _ => 0) = 2 := by decide +kernel
  cases hopen : Log.open settings s with
  | error refused =>
    rw [hopen] at hrun
    cases hrun
  | ok log =>
    rw [hopen] at hrun
    exact ⟨rfl, hs, hflushed, log, rfl, hrun,
      run_lossBound (ErraticStore.crashLaws MemoryStore.crashLaws) rfl hs hflushed hopen calls⟩

end Log

end Dataflow

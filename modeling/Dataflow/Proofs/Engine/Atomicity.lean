import Dataflow.Proofs.Engine.Reuse
import Dataflow.Proofs.Log.Durability
import Dataflow.Proofs.Log.Provenance

/-!
# A call that reports an error has changed nothing

Some calls change several things one after another, and each change might be refused. In a
consistent engine the first refusal comes before the first change: a rule is checked before it is
registered, and once the outputs of a transform are known to fit, none of them is refused, whatever
becomes ready meanwhile. So outputs whose record is in the log are never left unset.

* `Engine.RuleFault`, `Engine.CompletionFault`: what is refused, and the error that says so.
* `Engine.Consistent.settle_fits`: outputs that fit are set and complete their transform.
* `Engine.Atomic`: what a call that reports an error leaves.
* `Engine.run_atomic`: this holds of every engine.
-/

namespace Dataflow

namespace Engine

/-! ## What is refused -/

/-- Why a rule is refused, and the error that says so. -/
inductive RuleFault (e : Engine) (rule : Rule) : Error → Prop
  | blankName (hname : ∀ c ∈ rule.name.toList, isBlank c = true) :
    RuleFault e rule (.command .blankName)
  | repeatedOutput (output : DatumId) (hcount : 1 < rule.outputs.count output) :
    RuleFault e rule (.command (.repeatedOutput rule.name output))
  | unknownDatum (id : DatumId) (hnamed : id ∈ rule.inputs ++ rule.outputs)
      (hunknown : ∀ d, e.datum id ≠ .ok d) : RuleFault e rule (.notFound (.datum id))

/-- Why a transform cannot be completed, and the error that says so. -/
inductive CompletionFault (e : Engine) (id : TransformId) : Error → Prop
  | notLive (hgone : ∀ t, e.transform id ≠ .ok t) :
    CompletionFault e id (.notFound (.transform id))
  | waiting (t : Transform) (hlive : e.transform id = .ok t) (hstage : t.stage = .waiting) :
    CompletionFault e id (.command (.inputsUnset id t.pending))

theorem count_of_firstRepeated {seen ids : List DatumId} {id : DatumId}
    (h : firstRepeated seen ids = some id) : id ∈ seen ∧ id ∈ ids ∨ 1 < ids.count id := by
  induction ids generalizing seen with
  | nil => cases h
  | cons x ids ih =>
    rw [firstRepeated] at h
    split at h
    · rename_i hseen
      cases h
      exact .inl ⟨hseen, List.mem_cons_self⟩
    · rcases ih h with ⟨hseen, hmem⟩ | hcount
      · rcases List.mem_cons.mp hseen with rfl | hseen
        · have hpos := List.count_pos_iff.mpr hmem
          exact .inr (by rw [List.count_cons_self]; omega)
        · exact .inl ⟨hseen, List.mem_cons_of_mem _ hmem⟩
      · exact .inr (Nat.lt_of_lt_of_le hcount List.count_le_count_cons)

theorem datum_eq_error {e : Engine} {id : DatumId} {err : Error} (h : e.datum id = .error err) :
    err = .notFound (.datum id) := by
  rw [datum] at h
  split at h
  · cases h
  · cases h
    rfl

theorem datumsOf_eq_error {e : Engine} {ids : List DatumId} {err : Error}
    (h : e.datumsOf ids = .error err) :
    ∃ id ∈ ids, (∀ d, e.datum id ≠ .ok d) ∧ err = .notFound (.datum id) := by
  induction ids with
  | nil => cases h
  | cons id ids ih =>
    rw [datumsOf, List.mapM_cons] at h
    cases hd : e.datum id with
    | error err' =>
      rw [hd] at h
      cases h
      exact ⟨id, List.mem_cons_self, by simp [hd], datum_eq_error hd⟩
    | ok d =>
      cases hrest : ids.mapM e.datum with
      | error err' =>
        rw [hd, hrest] at h
        cases h
        obtain ⟨x, hx, hunknown⟩ := ih hrest
        exact ⟨x, List.mem_cons_of_mem _ hx, hunknown⟩
      | ok rest =>
        rw [hd, hrest] at h
        cases h

/-- The error names what is wrong with the rule. -/
theorem ruleFault_of_addRule {e : Engine} {rule : Rule} {err : Error}
    (h : (e.addRule rule).1 = .error err) : RuleFault e rule err := by
  rw [addRule] at h
  cases hvalid : rule.validate with
  | error err' =>
    rw [hvalid] at h
    cases h
    rw [Rule.validate] at hvalid
    split at hvalid
    · rename_i hblank
      cases hvalid
      exact .blankName (List.all_eq_true.mp hblank)
    · split at hvalid
      · rename_i output hrepeated
        cases hvalid
        rcases count_of_firstRepeated hrepeated with ⟨hnil, -⟩ | hcount
        · cases hnil
        · exact .repeatedOutput output hcount
      · cases hvalid
  | ok u =>
    rw [hvalid] at h
    cases hin : e.datumsOf rule.inputs with
    | error err' =>
      rw [hin] at h
      cases h
      obtain ⟨id, hid, hunknown, rfl⟩ := datumsOf_eq_error hin
      exact .unknownDatum id (List.mem_append_left _ hid) hunknown
    | ok inputs =>
      rw [hin] at h
      cases hout : e.datumsOf rule.outputs with
      | error err' =>
        rw [hout] at h
        cases h
        obtain ⟨id, hid, hunknown, rfl⟩ := datumsOf_eq_error hout
        exact .unknownDatum id (List.mem_append_right _ hid) hunknown
      | ok outputs =>
        rw [hout] at h
        cases h

/-- A rule with which anything is wrong is refused, though another fault may be named. -/
theorem addRule_of_ruleFault {e : Engine} {rule : Rule} {err : Error} (h : RuleFault e rule err) :
    ∃ err', (e.addRule rule).1 = .error err' := by
  rcases hresult : (e.addRule rule).1 with err' | id
  · exact ⟨err', rfl⟩
  · exfalso
    rw [addRule] at hresult
    split at hresult
    · cases hresult
    · rename_i hvalid
      split at hresult
      · cases hresult
      · rename_i inputs hin
        split at hresult
        · cases hresult
        · rename_i outputs hout
          cases h with
          | blankName hname =>
            rw [Rule.validate, isBlankText, if_pos (List.all_eq_true.mpr hname)] at hvalid
            cases hvalid
          | repeatedOutput output hcount =>
            have hle := List.nodup_iff_count_le_one.mp (outputs_nodup_of_validate hvalid) output
            omega
          | unknownDatum id hnamed hunknown =>
            have hsome : (e.datums.get? id).isSome :=
              (List.mem_append.mp hnamed).elim (isSome_of_datumsOf hin id)
                (isSome_of_datumsOf hout id)
            obtain ⟨d, hd⟩ := Option.isSome_iff_exists.mp hsome
            exact hunknown d (datum_eq_ok_iff.mpr hd)

theorem complete_error_iff (e : Engine) (id : TransformId) (err : Error) :
    (e.complete id).1 = .error err ↔ CompletionFault e id err := by
  cases hget : e.transforms.get? id with
  | none =>
    have hgone : e.transform id = .error (.notFound (.transform id)) := by rw [transform, hget]
    rw [complete, hgone]
    constructor
    · intro h
      cases h
      exact .notLive fun t ht => by rw [hgone] at ht; cases ht
    · rintro (⟨-⟩ | ⟨t, ht, -⟩)
      · rfl
      · rw [hgone] at ht
        cases ht
  | some t =>
    have hlive := transform_eq_ok_iff.mpr hget
    rw [complete, hlive]
    dsimp only
    constructor
    · intro h
      split at h
      · rename_i hstage
        cases h
        exact .waiting t hlive hstage
      · cases h
    · rintro (⟨hgone⟩ | ⟨t', ht', hstage⟩)
      · exact absurd hlive (hgone t)
      · rw [hlive] at ht'
        cases ht'
        rw [if_pos hstage]

/-! ## Single changes -/

theorem setDatum_error {e : Engine} {id : DatumId} {value : Bytes} {err : Error}
    (h : (e.setDatum id value).1 = .error err) : (e.setDatum id value).2 = e := by
  rcases setDatum_cases e id value with hsame | ⟨d, hget, hd⟩
  · exact hsame
  · rw [setDatum_unset hget hd] at h
    cases h

theorem releaseDatum_error {e : Engine} {id : DatumId} {err : Error}
    (h : (e.releaseDatum id).1 = .error err) : (e.releaseDatum id).2 = e := by
  unfold releaseDatum at h ⊢
  split at h
  · rfl
  · split at h
    · rename_i huses
      exact congrArg Prod.snd (if_pos huses)
    · cases h

theorem addRule_error {e : Engine} {rule : Rule} {err : Error}
    (h : (e.addRule rule).1 = .error err) : (e.addRule rule).2 = e := by
  rcases addRule_cases e rule with hsame | ⟨-, -, hadded⟩
  · exact hsame
  · rw [hadded] at h
    cases h

theorem complete_error {e : Engine} {id : TransformId} {err : Error}
    (h : (e.complete id).1 = .error err) : (e.complete id).2 = e := by
  rcases complete_cases e id with ⟨hsame, -⟩ | ⟨t, hget, hstage⟩
  · exact hsame
  · rw [complete_answer hget hstage] at h
    cases h

/-! ## Outputs -/

/-- A transform that has a key is live and does not wait. -/
theorem transform_of_outputsKey {e : Engine} {id : TransformId} {key : Bytes}
    (h : e.outputsKey id = .ok key) : ∃ t, e.transform id = .ok t ∧ t.stage ≠ .waiting := by
  cases ht : e.transform id with
  | error err =>
    rw [outputsKey, ht] at h
    cases h
  | ok t => exact ⟨t, rfl, stage_ne_of_outputsKey ht h⟩

/-- Outputs that fit a transform with a key complete it: no output refuses its value, and the
transform still does not wait when all of them are set. -/
theorem Consistent.settle_fits {e : Engine} (hc : e.Consistent) {id : TransformId} {key : Bytes}
    {values : List Bytes} {outputs : List DatumId} (hkey : e.outputsKey id = .ok key)
    (hfits : e.unsetOutputs id values.length = .ok outputs) :
    ∃ t e', e.transform id = .ok t ∧ e.settle id values = (.ok t.finished, e') ∧
      e.CompletedWith t values e' := by
  obtain ⟨t, ht, hstage⟩ := transform_of_outputsKey hkey
  obtain ⟨hlength, hunset, t', hget', rfl⟩ := unsetOutputs_eq_ok hfits
  rw [transform_eq_ok_iff.mp ht] at hget'
  cases hget'
  obtain ⟨e', hsettle, hcompleted⟩ := hc.settle_completes ht hstage hlength
    fun x hx => datumStatus_of_isUnset (hunset x hx)
  exact ⟨t, e', ht, hsettle, hcompleted⟩

theorem Consistent.settle_error {e e' : Engine} (hc : e.Consistent) {id : TransformId}
    {key : Bytes} {values : List Bytes} {err : Error} (hkey : e.outputsKey id = .ok key)
    (h : e.settle id values = (.error err, e')) : e' = e := by
  cases hfits : e.unsetOutputs id values.length with
  | error err' =>
    rw [settle, hfits] at h
    cases h
    rfl
  | ok outputs =>
    obtain ⟨t, e'', -, hsettle, -⟩ := hc.settle_fits hkey hfits
    rw [hsettle] at h
    cases h

section

variable {σ : Type} [Store σ] {e e' : Engine} {log log' : Log σ} {id : TransformId}
  {outputs : List Bytes} {durability : Durability}

/-- Recording fails before the log is asked, or because the write fails. -/
theorem Consistent.record_error (hc : e.Consistent) {failure : Failure Error}
    (h : e.record log id outputs durability = (.error failure, e', log')) :
    e' = e ∧ (log' = log ∨ ∃ key, e.outputsKey id = .ok key ∧
      log.write key (RecordedOutputs.encode ⟨outputs⟩) durability true =
        (.error failure, log')) := by
  rw [record] at h
  cases hkey : e.outputsKey id with
  | error err =>
    rw [hkey] at h
    cases h
    exact ⟨rfl, .inl rfl⟩
  | ok key =>
    rw [hkey] at h
    dsimp only at h
    cases hfits : e.unsetOutputs id outputs.length with
    | error err =>
      rw [hfits] at h
      cases h
      exact ⟨rfl, .inl rfl⟩
    | ok unset =>
      rw [hfits] at h
      dsimp only at h
      split at h
      · rename_i hwrite
        cases h
        exact ⟨rfl, .inr ⟨key, rfl, hwrite⟩⟩
      · obtain ⟨t, e₁, -, hsettle, -⟩ := hc.settle_fits hkey hfits
        rw [hsettle] at h
        cases h

theorem Consistent.record_written (hc : e.Consistent) {key : Bytes} {unset : List DatumId}
    {sequence : SequenceNumber} (hkey : e.outputsKey id = .ok key)
    (hfits : e.unsetOutputs id outputs.length = .ok unset)
    (hwrite : log.write key (RecordedOutputs.encode ⟨outputs⟩) durability true =
      (.ok sequence, log')) :
    ∃ t e', e.transform id = .ok t ∧
      e.record log id outputs durability = (.ok t.finished, e', log') ∧
      e.CompletedWith t outputs e' := by
  obtain ⟨t, e', ht, hsettle, hcompleted⟩ := hc.settle_fits hkey hfits
  refine ⟨t, e', ht, ?_, hcompleted⟩
  rw [record, hkey]
  dsimp only
  rw [hfits]
  dsimp only
  rw [hwrite]
  dsimp only
  rw [hsettle]
  rfl

/-- Unless outputs are found and set, the engine stays as it is. -/
theorem Consistent.reuse_unchanged (hc : e.Consistent) {result : Except Error Bool}
    (h : e.reuse log id = (result, e', log')) (hresult : result ≠ .ok true) : e' = e := by
  rw [reuse] at h
  cases hkey : e.outputsKey id with
  | error err =>
    rw [hkey] at h
    cases h
    rfl
  | ok key =>
    rw [hkey] at h
    dsimp only at h
    split at h
    · cases h
      rfl
    · cases h
      rfl
    · split at h
      · cases h
        rfl
      · split at h
        · rename_i hsettle
          cases h
          exact hc.settle_error hkey hsettle
        · cases h
          exact absurd rfl hresult

end

/-! ## Every engine -/

/-- A call that reports an error has changed nothing, and no call reports one without a reason. -/
structure Atomic (e : Engine) : Prop where
  setDatum : ∀ id value err, (e.setDatum id value).1 = .error err → (e.setDatum id value).2 = e
  releaseDatum : ∀ id err, (e.releaseDatum id).1 = .error err → (e.releaseDatum id).2 = e
  addRule : ∀ rule err, (e.addRule rule).1 = .error err → (e.addRule rule).2 = e
  complete : ∀ id err, (e.complete id).1 = .error err → (e.complete id).2 = e
  record : ∀ {σ : Type} [Store σ] (log : Log σ) id outputs durability failure e' log',
    e.record log id outputs durability = (.error failure, e', log') → e' = e
  reuse : ∀ {σ : Type} [Store σ] (log : Log σ) id result e' log',
    e.reuse log id = (result, e', log') → result ≠ .ok true → e' = e
  addRule_error_iff : ∀ rule,
    (∃ err, (e.addRule rule).1 = .error err) ↔ ∃ err, RuleFault e rule err
  addRule_names : ∀ rule err, (e.addRule rule).1 = .error err → RuleFault e rule err
  complete_error_iff : ∀ id err, (e.complete id).1 = .error err ↔ CompletionFault e id err
  /-- The log has not been asked, or its write has failed. -/
  record_error : ∀ {σ : Type} [Store σ] (log : Log σ) id outputs durability failure e' log',
    e.record log id outputs durability = (.error failure, e', log') →
      log' = log ∨ ∃ key, e.outputsKey id = .ok key ∧
        log.write key (RecordedOutputs.encode ⟨outputs⟩) durability true = (.error failure, log')
  /-- If the store lets a record whose write has failed be cut off, the log has gained none. -/
  record_unrecorded : ∀ {σ : Type} [Store σ] {Holds : σ → Bytes → Prop} (log : Log σ) rs id outputs
      durability failure e' log', Store.Laws Holds → Store.Cuts Holds →
    Holds log.store (Record.logBytes rs) →
    log.nextSequence.number ≤ SequenceNumber.maxNumber →
    e.record log id outputs durability = (.error failure, e', log') →
      Holds log'.store (Record.logBytes rs) ∧ log'.index = log.index
  /-- Once the record is written, nothing can fail any more. -/
  record_written : ∀ {σ : Type} [Store σ] (log : Log σ) id outputs durability key unset sequence
      log',
    e.outputsKey id = .ok key → e.unsetOutputs id outputs.length = .ok unset →
    log.write key (RecordedOutputs.encode ⟨outputs⟩) durability true = (.ok sequence, log') →
      ∃ t e', e.transform id = .ok t ∧
        e.record log id outputs durability = (.ok t.finished, e', log') ∧
        e.CompletedWith t outputs e'

theorem Consistent.atomic {e : Engine} (hc : e.Consistent) : e.Atomic where
  setDatum _ _ _ := setDatum_error
  releaseDatum _ _ := releaseDatum_error
  addRule _ _ := addRule_error
  complete _ _ := complete_error
  record _ _ _ _ _ _ _ h := (hc.record_error h).1
  reuse _ _ _ _ _ := hc.reuse_unchanged
  addRule_error_iff _ :=
    ⟨fun ⟨err, h⟩ => ⟨err, ruleFault_of_addRule h⟩, fun ⟨_, h⟩ => addRule_of_ruleFault h⟩
  addRule_names _ _ := ruleFault_of_addRule
  complete_error_iff := complete_error_iff e
  record_error _ _ _ _ _ _ _ h := (hc.record_error h).2
  record_unrecorded log rs id outputs durability failure e' log' laws cuts hs hsequence h := by
    rcases (hc.record_error h).2 with rfl | ⟨key, -, hwrite⟩
    · exact ⟨hs, rfl⟩
    · exact Log.write_error laws cuts hs hsequence hwrite
  record_written _ _ _ _ _ _ _ _ := hc.record_written

/-- Whatever callers have asked of a new engine, a call that then reports an error changes nothing
of it. -/
theorem run_atomic (calls : List Call) : (empty.run calls).Atomic :=
  (consistent_empty.run calls).atomic

/-- The outputs are to outlive a loss of power, but every sync fails. Their record is appended to the
log and cut off again, and the transform has not been completed. -/
theorem run_atomic_unrecorded :
    let rule : Rule := { name := "sum", inputs := [⟨1⟩], outputs := [⟨2⟩] }
    let calls : List Call := [.createSetDatum [1, 2], .createDatum, .addRule rule]
    let r : Record := ⟨[1], [10], .persist, true, ⟨4⟩⟩
    let s : MemoryStore := { MemoryStore.ofBytes (Record.logBytes [r]) with failSync := true }
    Store.Laws MemoryStore.Holds ∧ Store.Cuts MemoryStore.Holds ∧
      ∃ log e log', Log.open {} s = .ok log ∧ log.nextSequence = ⟨5⟩ ∧
        (empty.run calls).record log ⟨1⟩ [[7]] .persist =
          (.error (.reported (.io .syncRecord (.injected .sync))), e, log') ∧
        e = empty.run calls ∧ e.transform ⟨1⟩ = .ok ⟨⟨1⟩, rule, 0, .ready⟩ ∧
        log'.store.Holds (Record.logBytes [r]) ∧ log'.index = log.index := by
  intro rule calls r s
  have laws : Store.Laws MemoryStore.Holds := MemoryStore.reliable.toLaws
  have cuts : Store.Cuts MemoryStore.Holds := fun _ _ hs length =>
    MemoryStore.reliable.truncate_reliable hs length
  have hs : s.Holds (Record.logBytes [r]) := rfl
  have hfits : ∀ r' ∈ [r], r'.Fits :=
    List.forall_mem_singleton.mpr ⟨by decide, by decide, by decide⟩
  have hopen : Log.open {} s = .ok (Log.ofFrames {} (PlacedFrame.layout 0 [r]) 0 s) :=
    Log.open_memory hs hfits rfl
  generalize hlog : Log.ofFrames {} (PlacedFrame.layout 0 [r]) 0 s = log at hopen
  have hresult : ((empty.run calls).record log ⟨1⟩ [[7]] .persist).1 =
      .error (.reported (.io .syncRecord (.injected .sync))) := by
    rw [← hlog]
    decide +kernel
  have hnext : log.nextSequence = ⟨5⟩ := by
    rw [← hlog]
    decide
  have hholds : log.store.Holds (Record.logBytes [r]) := by
    rw [← hlog]
    exact hs
  have hready : (empty.run calls).transform ⟨1⟩ = .ok ⟨⟨1⟩, rule, 0, .ready⟩ := by decide +kernel
  rcases hrecord : (empty.run calls).record log ⟨1⟩ [[7]] .persist with ⟨result, e, log'⟩
  rw [hrecord] at hresult
  obtain rfl : result = _ := hresult
  have hatomic := run_atomic calls
  have hengine : e = empty.run calls := hatomic.record log _ _ _ _ _ _ hrecord
  obtain ⟨hkept, hindex⟩ := hatomic.record_unrecorded log [r] _ _ _ _ _ _ laws cuts hholds
    (by rw [hnext]; decide) hrecord
  exact ⟨laws, cuts, log, e, log', hopen, hnext, hrecord, hengine, hengine ▸ hready, hkept, hindex⟩

end Engine

end Dataflow

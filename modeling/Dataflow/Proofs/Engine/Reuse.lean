import Dataflow.Proofs.Engine.Steps
import Dataflow.Proofs.Log.Retention
import Dataflow.Proofs.Memo.Outputs

/-!
# Recorded outputs are used again

Once the outputs of a transform have been recorded, the transform can be completed from the log: in
the engine as it was, which leads to the same engine again, and in any other engine that asks for
the same name with the same values of the inputs.

* `Engine.CompletedWith`: a transform has been completed with some outputs.
* `Engine.Consistent.settle_completes`: outputs that fit complete a transform that does not wait.
* `Engine.record_eq_ok`, `Engine.reuse_eq`: what recording has done, what finding does.
* `Engine.reuse_recorded`: recorded outputs are used again.
-/

namespace Dataflow.Engine

open Std

/-! ## What setting and completing leave -/

theorem datumValue_congr {e e' : Engine} {x : DatumId}
    (h : (e'.datums.get? x).map (·.value) = (e.datums.get? x).map (·.value)) :
    e'.datumValue x = e.datumValue x := by
  simp only [datumValue, datum]
  cases hget : e.datums.get? x <;> cases hget' : e'.datums.get? x <;> simp_all [Except.map]

theorem datumValue_setDatum {e : Engine} {id : DatumId} {d : Datum}
    (hget : e.datums.get? id = some d) (hd : d.isSet = false) (value : Bytes) (x : DatumId) :
    (e.setDatum id value).2.datumValue x =
      if x = id then .ok (some value) else e.datumValue x := by
  have hafter := get?_setDatum hget hd value x
  by_cases hx : x = id
  · rw [if_pos hx] at hafter ⊢
    rw [datumValue, datum_eq_ok_iff.mpr hafter]
    rfl
  · rw [if_neg hx] at hafter ⊢
    exact datumValue_congr (congrArg _ hafter)

section

variable {e : Engine} {id : TransformId} {t : Transform} (hget : e.transforms.get? id = some t)
  (hstage : t.stage ≠ .waiting)

include hget hstage

theorem datumValue_complete (x : DatumId) : (e.complete id).2.datumValue x = e.datumValue x := by
  refine datumValue_congr ?_
  rw [get?_complete hget hstage, Option.map_map]
  rfl

/-- A transform that does not wait is completed. -/
theorem complete_answer : (e.complete id).1 = .ok t.finished := by
  rw [complete, transform_eq_ok_iff.mpr hget]
  dsimp only
  rw [if_neg hstage]

/-- A transform that has been completed is gone. -/
theorem transform_complete :
    (e.complete id).2.transform id = .error (.notFound (.transform id)) := by
  have hgone : (e.complete id).2.transforms.get? id = none := by
    rw [complete_eq hget hstage]
    exact (SortedMap.get?_erase _ _ _).trans (if_pos ReflCmp.compare_self)
  rw [transform, hgone]

end

/-! ## Completing a transform with outputs -/

/-- A transform has been completed with some outputs. No other datum has got a value. -/
structure CompletedWith (e : Engine) (t : Transform) (values : List Bytes) (e' : Engine) :
    Prop where
  length_eq : t.rule.outputs.length = values.length
  outputs : ∀ p ∈ t.rule.outputs.zip values, e'.datumValue p.1 = .ok (some p.2)
  others : ∀ x ∉ t.rule.outputs, e'.datumValue x = e.datumValue x
  gone : e'.transform t.id = .error (.notFound (.transform t.id))
  completed : e'.completed = e.completed + 1

theorem checkUnset_eq_ok {e : Engine} {ids : List DatumId}
    (h : ∀ x ∈ ids, e.datumStatus x = .ok .unset) : e.checkUnset ids = .ok () := by
  induction ids with
  | nil => rfl
  | cons x ids ih =>
    obtain ⟨hx, hids⟩ := List.forall_mem_cons.mp h
    rw [checkUnset, hx]
    exact ih hids

theorem unsetOutputs_eq {e : Engine} {id : TransformId} {t : Transform} {count : Nat}
    (ht : e.transform id = .ok t) (hlength : t.rule.outputs.length = count)
    (hunset : ∀ x ∈ t.rule.outputs, e.datumStatus x = .ok .unset) :
    e.unsetOutputs id count = .ok t.rule.outputs := by
  rw [unsetOutputs, ht]
  dsimp only
  rw [if_neg (not_not.mpr hlength), checkUnset_eq_ok hunset]
  rfl

namespace Consistent

variable {e : Engine} {id : TransformId} {t : Transform}

/-- A transform that does not wait stays as it is when a datum is set. -/
theorem transform_setDatum (hc : e.Consistent) (ht : e.transforms.get? id = some t)
    (hstage : t.stage ≠ .waiting) {x : DatumId} {d : Datum} (hget : e.datums.get? x = some d)
    (hd : d.isSet = false) (value : Bytes) :
    (e.setDatum x value).2.transforms.get? id = some t := by
  have hpending := hc.pending_of_get? ht hstage
  obtain ⟨hmem, rfl⟩ := hc.mem_of_get? ht
  have hcount : t.rule.inputs.count x = 0 := by
    have hle := hc.count_le_pending hmem (isUnset_self hget hd)
    omega
  have htold : t.told x = t := by
    have hready := hc.stage_eq t hmem
    rw [if_pos hpending] at hready
    rw [Transform.told, hcount, hpending, if_pos rfl, ← hready, Nat.sub_zero, ← hpending]
  refine (hc.set x value).get?_of_mem ?_
  rw [hc.live_setDatum hget hd]
  exact List.mem_map.mpr ⟨t, hmem, htold⟩

/-- Setting datums leaves a transform that does not wait in the engine. -/
theorem setDatums_spec {ps : List (DatumId × Bytes)} (hc : e.Consistent)
    (ht : e.transforms.get? id = some t) (hstage : t.stage ≠ .waiting)
    (hnodup : (ps.map (·.1)).Nodup) (hunset : ∀ p ∈ ps, e.isUnset p.1 = true) :
    ∃ e', e.setDatums ps = (.ok (), e') ∧ e'.transforms.get? id = some t ∧
      (∀ p ∈ ps, e'.datumValue p.1 = .ok (some p.2)) ∧
      (∀ x ∉ ps.map (·.1), e'.datumValue x = e.datumValue x) ∧ e'.completed = e.completed := by
  induction ps generalizing e with
  | nil => exact ⟨e, rfl, ht, by simp, fun x _ => rfl, rfl⟩
  | cons p ps ih =>
    obtain ⟨hfirst, hrest⟩ := List.forall_mem_cons.mp hunset
    obtain ⟨hnew, hnodup⟩ := List.nodup_cons.mp hnodup
    rw [isUnset_eq, Option.any_eq_true] at hfirst
    obtain ⟨d, hget, hd⟩ := hfirst
    rw [Bool.not_eq_true'] at hd
    have hvalue := datumValue_setDatum hget hd p.2
    obtain ⟨e', hset, ht', hvalues, hothers, hcompleted⟩ := ih (hc.set p.1 p.2)
      (hc.transform_setDatum ht hstage hget hd p.2) hnodup fun q hq => by
        have hne : q.1 ≠ p.1 := fun heq => hnew (List.mem_map.mpr ⟨q, hq, heq⟩)
        rw [isUnset_setDatum hget hd, hrest q hq]
        simpa using hne
    refine ⟨e', ?_, ht', List.forall_mem_cons.mpr ⟨?_, hvalues⟩, fun x hx => ?_, ?_⟩
    · rw [setDatums, ← hset, setDatum_unset hget hd]
    · rw [hothers p.1 hnew, hvalue, if_pos rfl]
    · rw [List.map_cons, List.mem_cons, not_or] at hx
      rw [hothers x hx.2, hvalue, if_neg hx.1]
    · rw [hcompleted, setDatum_eq hget hd]
      rfl

/-- Outputs that fit complete a transform that does not wait. -/
theorem settle_completes (hc : e.Consistent) {values : List Bytes} (ht : e.transform id = .ok t)
    (hstage : t.stage ≠ .waiting) (hlength : t.rule.outputs.length = values.length)
    (hunset : ∀ x ∈ t.rule.outputs, e.datumStatus x = .ok .unset) :
    ∃ e', e.settle id values = (.ok t.finished, e') ∧ e.CompletedWith t values e' := by
  have hget := transform_eq_ok_iff.mp ht
  obtain ⟨hmem, hid⟩ := hc.mem_of_get? hget
  have hfirst : (t.rule.outputs.zip values).map (·.1) = t.rule.outputs :=
    List.map_fst_zip (Nat.le_of_eq hlength)
  have hnone : ∀ p ∈ t.rule.outputs.zip values, e.isUnset p.1 = true := fun p hp => by
    rw [isUnset, hunset p.1 (List.of_mem_zip hp).1]
  obtain ⟨e₁, hset, hget₁, hvalues, hothers, hcompleted⟩ :=
    hc.setDatums_spec hget hstage (hfirst.symm ▸ hc.outputs_nodup t hmem) hnone
  rw [hfirst] at hothers
  refine ⟨(e₁.complete id).2, ?_, hlength, fun p hp => ?_, fun x hx => ?_, ?_, ?_⟩
  · rw [settle, unsetOutputs_eq ht hlength hunset]
    dsimp only
    rw [hset]
    exact Prod.ext (complete_answer hget₁ hstage) rfl
  · rw [datumValue_complete hget₁ hstage, hvalues p hp]
  · rw [datumValue_complete hget₁ hstage, hothers x hx]
  · rw [hid]
    exact transform_complete hget₁ hstage
  · rw [complete_eq hget₁ hstage, ← hcompleted]

end Consistent

/-! ## Recording and finding -/

theorem outputsKey_eq {e : Engine} {id : TransformId} {t : Transform} {inputs : List Bytes}
    (ht : e.transform id = .ok t) (hinputs : e.inputValues t = .ok inputs)
    (hstage : t.stage ≠ .waiting) : e.outputsKey id = .ok (Memo.key t.rule.name inputs) := by
  rw [outputsKey, ht]
  dsimp only
  rw [if_neg hstage, hinputs]
  rfl

section

variable {σ : Type} [Store σ] {e e' : Engine} {log log' : Log σ} {id : TransformId} {key : Bytes}

/-- Recording outputs writes them under their key, sets them and completes the transform. -/
theorem record_eq_ok {outputs : List Bytes} {durability : Durability} {done : Transform}
    (h : e.record log id outputs durability = (.ok done, e', log')) :
    ∃ key sequence, e.outputsKey id = .ok key ∧
      log.write key (RecordedOutputs.encode ⟨outputs⟩) durability true = (.ok sequence, log') ∧
      e.settle id outputs = (.ok done, e') := by
  rw [record] at h
  cases hkey : e.outputsKey id with
  | error err =>
    rw [hkey] at h
    cases h
  | ok key =>
    rw [hkey] at h
    dsimp only at h
    split at h
    · cases h
    · split at h
      · cases h
      · rename_i sequence log₁ hwrite
        rcases hsettle : e.settle id outputs with ⟨result, e₁⟩
        rw [hsettle] at h
        cases result with
        | error err => cases h
        | ok t =>
          cases h
          exact ⟨key, sequence, rfl, hwrite, rfl⟩

/-- A transform whose outputs were recorded did not wait, and none of its outputs was set. -/
theorem settle_eq_ok {values : List Bytes} {t done : Transform} (ht : e.transform id = .ok t)
    (h : e.settle id values = (.ok done, e')) : t.rule.outputs.length = values.length ∧
      ∀ x ∈ t.rule.outputs, e.datumStatus x = .ok .unset := by
  rw [settle] at h
  split at h
  · cases h
  · rename_i outputs hout
    obtain ⟨hlength, hunset, t', hget, rfl⟩ := unsetOutputs_eq_ok hout
    rw [transform_eq_ok_iff.mp ht] at hget
    cases hget
    exact ⟨hlength, fun x hx => datumStatus_of_isUnset (hunset x hx)⟩

theorem stage_ne_of_outputsKey {t : Transform} (ht : e.transform id = .ok t)
    (h : e.outputsKey id = .ok key) : t.stage ≠ .waiting := by
  intro hstage
  rw [outputsKey, ht] at h
  dsimp only at h
  rw [if_pos hstage] at h
  cases h

/-- Outputs that are found complete the transform. -/
theorem reuse_eq {values : List Bytes} {done : Transform} (hkey : e.outputsKey id = .ok key)
    (hlookup : log.lookup key = (.ok (RecordedOutputs.encode ⟨values⟩), log'))
    (hlength : (RecordedOutputs.encode ⟨values⟩).length < Bytes.capacity 8)
    (hsettle : e.settle id values = (.ok done, e')) : e.reuse log id = (.ok true, e', log') := by
  rw [reuse, hkey]
  dsimp only
  rw [hlookup]
  dsimp only
  rw [RecordedOutputs.decode_encode hlength]
  dsimp only
  rw [hsettle]

end

/-! ## Using recorded outputs again -/

variable {σ : Type} [Store σ] {Holds Calm Secure : σ → Bytes → Prop}

open Session (opened)

/-- Outputs that an engine has recorded are used again, whatever the log does with other keys
afterwards and whatever happens to its store, as long as calls of the store do not fail any more. A
crash or a loss of power is allowed if the outputs were to outlive one. The engine as it was comes
out as it did when the outputs were recorded. Any other engine that asks for the same name with the
same values of the inputs gets the outputs in order. -/
theorem reuse_recorded (laws : Store.SecureLaws Holds Secure) (reliable : Store.Reliable Calm)
    (hcalm : ∀ s b, Calm s b → Holds s b) {settings : LogSettings} {s : σ} {image : Bytes}
    (hs : Holds s image) {log : Log σ} (hopen : Log.open settings s = .ok log)
    (earlier : List Log.Call) (calls : List Call) {id : TransformId} {t done : Transform}
    {inputs outputs : List Bytes} {durability : Durability} {e : Engine} {log₁ : Log σ}
    (ht : (empty.run calls).transform id = .ok t)
    (hinputs : (empty.run calls).inputValues t = .ok inputs)
    (hrecord : (empty.run calls).record (log.run earlier).2 id outputs durability =
      (.ok done, e, log₁))
    (hcalmed : ∀ b, Holds log₁.store b → Calm log₁.store b) {turns : List (Session.Turn σ)}
    (hturns : ∀ turn ∈ turns,
      turn.Spares Calm Secure (Memo.key t.rule.name inputs) durability) :
    (empty.run calls).CompletedWith t outputs e ∧
    ∃ log', (opened log₁).afterTurns turns = opened log' ∧
      (∃ log'', (empty.run calls).reuse log' id = (.ok true, e, log'')) ∧
      ∀ calls' id' t', (empty.run calls').transform id' = .ok t' → t'.stage = .ready →
        t'.rule.name = t.rule.name → (empty.run calls').inputValues t' = .ok inputs →
        t'.rule.outputs.length = outputs.length →
        (∀ x ∈ t'.rule.outputs, (empty.run calls').datumStatus x = .ok .unset) →
        ∃ e' log'', (empty.run calls').reuse log' id' = (.ok true, e', log'') ∧
          (empty.run calls').CompletedWith t' outputs e' := by
  obtain ⟨key, sequence, hkey, hwrite, hsettle⟩ := record_eq_ok hrecord
  have hstage := stage_ne_of_outputsKey ht hkey
  obtain rfl : Memo.key t.rule.name inputs = key :=
    Except.ok.inj ((outputsKey_eq ht hinputs hstage).symm.trans hkey)
  -- The record is kept in the log, and a look-up gives its value.
  obtain ⟨rs, horderly⟩ := Log.orderly_open laws hs hopen
  obtain ⟨rs', horderly⟩ := horderly.run laws earlier
  have hretained := horderly.retained laws hwrite hcalmed
  obtain ⟨log', after, hafter, hretained⟩ :=
    hretained.turns (laws.of_reliable reliable hcalm) reliable hturns
  obtain ⟨log'', hlookup, -⟩ := hretained.lookup reliable.toReadable
  have hlength : (RecordedOutputs.encode ⟨outputs⟩).length < Bytes.capacity 8 := by
    have hfits := (hretained.fits _ (List.mem_append_right _ List.mem_cons_self)).value
    exact Nat.lt_of_le_of_lt hfits (by decide)
  obtain ⟨hcount, hunset⟩ := settle_eq_ok ht hsettle
  obtain ⟨e', hsettle', hcompleted⟩ :=
    (consistent_empty.run calls).settle_completes ht hstage hcount hunset
  rw [hsettle] at hsettle'
  cases hsettle'
  refine ⟨hcompleted, log', hafter, ⟨log'', reuse_eq hkey hlookup hlength hsettle⟩, ?_⟩
  intro calls' id' t' ht' hready hname hinputs' hcount' hunset'
  have hstage' : t'.stage ≠ .waiting := by
    rw [hready]
    decide
  have hkey' := outputsKey_eq ht' hinputs' hstage'
  rw [hname] at hkey'
  obtain ⟨e', hsettle', hcompleted'⟩ :=
    (consistent_empty.run calls').settle_completes ht' hstage' hcount' hunset'
  exact ⟨e', log'', reuse_eq hkey' hlookup hlength hsettle', hcompleted'⟩

/-- An index that has room for one key, a torn frame before, and a loss of power and a crash
afterwards. -/
theorem reuse_recorded_powerLoss :
    let rule : Rule := { name := "sum", inputs := [⟨1⟩], outputs := [⟨3⟩, ⟨2⟩] }
    let rule' : Rule := { name := "sum", inputs := [⟨3⟩], outputs := [⟨1⟩, ⟨2⟩] }
    let calls : List Call := [.createSetDatum [1, 2], .createDatum, .createDatum, .addRule rule]
    let calls' : List Call := [.createDatum, .addRule { name := "sum", inputs := [⟨1⟩] },
      .createDatum, .createSetDatum [1, 2], .addRule rule']
    let settings : LogSettings := { maxIndexEntries := 1 }
    let s := MemoryStore.ofBytes ((Record.mk [1] [10] .persist true ⟨1⟩).frame ++ [7])
    let earlier : List Log.Call := [.write [2] [20] .transient true]
    let turns : List (Session.Turn MemoryStore) := [.call (.write [3] [30] .transient true),
      .call (.lookup [2]), .restart MemoryStore.powerLoss settings, .call (.contains [1]),
      .restart MemoryStore.crash settings]
    ∃ log done e log₁, Log.open settings s = .ok log ∧
      (empty.run calls).record (log.run earlier).2 ⟨1⟩ [[7], [8, 9]] .persist =
        (.ok done, e, log₁) ∧
      ∃ log', (opened log₁).afterTurns turns = opened log' ∧
        (∃ log'', (empty.run calls).reuse log' ⟨1⟩ = (.ok true, e, log'')) ∧
        ∃ e' log'', (empty.run calls').reuse log' ⟨2⟩ = (.ok true, e', log'') ∧
          e'.datumValue ⟨1⟩ = .ok (some [7]) ∧ e'.datumValue ⟨2⟩ = .ok (some [8, 9]) := by
  intro rule rule' calls calls' settings s earlier turns
  have ht : (empty.run calls).transform ⟨1⟩ = .ok ⟨⟨1⟩, rule, 0, .ready⟩ := by decide +kernel
  have hinputs : (empty.run calls).inputValues ⟨⟨1⟩, rule, 0, .ready⟩ = .ok [[1, 2]] := by
    decide +kernel
  have ht' : (empty.run calls').transform ⟨2⟩ = .ok ⟨⟨2⟩, rule', 0, .ready⟩ := by decide +kernel
  have hinputs' : (empty.run calls').inputValues ⟨⟨2⟩, rule', 0, .ready⟩ = .ok [[1, 2]] := by
    decide +kernel
  have hunset' : ∀ x ∈ rule'.outputs, (empty.run calls').datumStatus x = .ok .unset := by
    decide +kernel
  have hkey : [3] ≠ Memo.key "sum" [[1, 2]] := by decide +kernel
  have hrecorded : (match Log.open settings s with
      | .ok log => ((empty.run calls).record (log.run earlier).2 ⟨1⟩ [[7], [8, 9]] .persist).1.isOk
      | .error _ => false) = true := by decide +kernel
  cases hopen : Log.open settings s with
  | error refused =>
    rw [hopen] at hrecorded
    cases hrecorded
  | ok log =>
    rw [hopen] at hrecorded
    rcases hrecord : (empty.run calls).record (log.run earlier).2 ⟨1⟩ [[7], [8, 9]] .persist with
      ⟨result, e, log₁⟩
    dsimp only at hrecorded
    rw [hrecord] at hrecorded
    cases result with
    | error failure => cases hrecorded
    | ok done =>
      have hturns : ∀ turn ∈ turns, turn.Spares MemoryStore.Holds
          (MemoryStore.Before MemoryStore.lasting) (Memo.key "sum" [[1, 2]]) .persist := by
        simp only [turns, List.forall_mem_cons]
        exact ⟨hkey, trivial, ⟨rfl, .inr ⟨rfl, MemoryStore.spared_powerLoss⟩⟩, trivial,
          ⟨rfl, .inr ⟨rfl, MemoryStore.spared_crash⟩⟩,
          fun turn hturn => absurd hturn List.not_mem_nil⟩
      obtain ⟨-, log', hafter, hreuse, hother⟩ := reuse_recorded
        (MemoryStore.secureLaws MemoryStore.isMark_lasting) MemoryStore.reliable
        (fun _ _ h => h) rfl hopen earlier calls ht hinputs hrecord (fun _ h => h) hturns
      obtain ⟨e', log'', hreuse', hcompleted⟩ :=
        hother calls' ⟨2⟩ _ ht' rfl rfl hinputs' rfl hunset'
      exact ⟨log, done, e, log₁, rfl, hrecord, log', hafter, hreuse, e', log'', hreuse',
        hcompleted.outputs (⟨1⟩, [7]) (by decide), hcompleted.outputs (⟨2⟩, [8, 9]) (by decide)⟩

end Dataflow.Engine

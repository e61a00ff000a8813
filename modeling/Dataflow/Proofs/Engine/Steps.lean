import Dataflow.Proofs.Engine.Consistency

/-!
# Calls in small steps

In a consistent engine a call does what its small steps do. A transform that is completed with
outputs names each of them once, and none of them is set, so all of them are set before the
transform is completed.

* `Engine.setDatums_eq`: datums without a value are set one after another.
* `Engine.record_state`, `Engine.reuse_state`: the state after the calls that use a log.
* `Engine.Consistent.run_eq`, `Engine.Consistent.dispatched_eq`: histories of calls.
* `Engine.Consistent.run`: histories of calls keep engines consistent.
-/

namespace Dataflow.Engine

/-! ## Outputs -/

theorem isUnset_of_checkUnset {e : Engine} {ids : List DatumId} (h : e.checkUnset ids = .ok ()) :
    ∀ id ∈ ids, e.isUnset id = true := by
  induction ids with
  | nil => simp
  | cons id ids ih =>
    rw [checkUnset] at h
    cases hstatus : e.datumStatus id with
    | error err =>
      rw [hstatus] at h
      cases h
    | ok status =>
      rw [hstatus] at h
      cases status with
      | set => cases h
      | unset =>
        refine List.forall_mem_cons.mpr ⟨?_, ih h⟩
        rw [isUnset, hstatus]

/-- Outputs that fit are those of a live transform, and none of them is set. -/
theorem unsetOutputs_eq_ok {e : Engine} {id : TransformId} {count : Nat} {outputs : List DatumId}
    (h : e.unsetOutputs id count = .ok outputs) :
    outputs.length = count ∧ (∀ x ∈ outputs, e.isUnset x = true) ∧
      ∃ t, e.transforms.get? id = some t ∧ t.rule.outputs = outputs := by
  rw [unsetOutputs] at h
  cases hget : e.transform id with
  | error err =>
    rw [hget] at h
    cases h
  | ok t =>
    rw [hget] at h
    dsimp only at h
    split at h
    · cases h
    · rename_i hlength
      cases hcheck : e.checkUnset t.rule.outputs with
      | error err =>
        rw [hcheck] at h
        cases h
      | ok u =>
        rw [hcheck] at h
        cases h
        exact ⟨not_not.mp hlength, isUnset_of_checkUnset hcheck, t, transform_eq_ok_iff.mp hget,
          rfl⟩

/-- Different datums without a value are set one after another. -/
theorem setDatums_eq {e : Engine} {ps : List (DatumId × Bytes)} (hnodup : (ps.map (·.1)).Nodup)
    (hunset : ∀ p ∈ ps, e.isUnset p.1 = true) :
    e.setDatums ps = (.ok (), e.after (ps.map fun p => .set p.1 p.2)) := by
  induction ps generalizing e with
  | nil => rfl
  | cons p ps ih =>
    obtain ⟨hfirst, hrest⟩ := List.forall_mem_cons.mp hunset
    obtain ⟨hnew, hnodup⟩ := List.nodup_cons.mp hnodup
    rw [isUnset_eq, Option.any_eq_true] at hfirst
    obtain ⟨d, hget, hd⟩ := hfirst
    rw [Bool.not_eq_true'] at hd
    have hset : e.setDatum p.1 p.2 = (.ok (), (e.setDatum p.1 p.2).2) := by
      rw [setDatum_unset hget hd]
    rw [setDatums, hset]
    refine ih hnodup fun q hq => ?_
    have hne : q.1 ≠ p.1 := fun heq => hnew (List.mem_map.mpr ⟨q, hq, heq⟩)
    rw [isUnset_setDatum hget hd, hrest q hq]
    simpa using hne

/-! ## Logs -/

section

variable {σ : Type} [Store σ] (e : Engine) (log : Log σ) (id : TransformId)

/-- Recording outputs changes the engine only if they have been written. -/
theorem record_state (outputs : List Bytes) (durability : Durability) :
    (e.record log id outputs durability).2.1 =
      bif e.recorded log id outputs durability then (e.settle id outputs).2 else e := by
  rw [record, recorded]
  cases e.outputsKey id with
  | error err => rfl
  | ok key =>
    cases e.unsetOutputs id outputs.length with
    | error err => rfl
    | ok datums =>
      dsimp only
      generalize log.write key (RecordedOutputs.encode ⟨outputs⟩) durability true = written
      obtain ⟨result, log'⟩ := written
      cases result <;> rfl

/-- Looking outputs up changes the engine only if the log has them. -/
theorem reuse_state :
    (e.reuse log id).2.1 =
      match e.kept? log id with
      | some values => (e.settle id values).2
      | none => e := by
  rw [reuse, kept?]
  cases e.outputsKey id with
  | error err => rfl
  | ok key =>
    dsimp only
    generalize log.lookup key = found
    obtain ⟨result, log'⟩ := found
    cases result with
    | error err => cases err <;> rfl
    | ok bytes =>
      dsimp only
      cases RecordedOutputs.decode bytes with
      | error err => rfl
      | ok kept =>
        show _ = (e.settle id kept.outputs).2
        dsimp only
        generalize e.settle id kept.outputs = settled
        obtain ⟨answer, e'⟩ := settled
        cases answer <;> rfl

end

/-! ## Calls -/

namespace Consistent

variable {e : Engine} (hc : e.Consistent)

include hc

theorem settle_eq (id : TransformId) (values : List Bytes) :
    (e.settle id values).2 = e.after (e.settlement id values) := by
  rw [settle, settlement]
  cases hout : e.unsetOutputs id values.length with
  | error err => rfl
  | ok outputs =>
    obtain ⟨hlength, hunset, t, hget, houtputs⟩ := unsetOutputs_eq_ok hout
    have hfirst : (outputs.zip values).map (·.1) = outputs :=
      List.map_fst_zip (by omega)
    have hnodup : ((outputs.zip values).map (·.1)).Nodup := by
      rw [hfirst, ← houtputs]
      exact hc.outputs_nodup t (hc.mem_of_get? hget).1
    have hset := setDatums_eq hnodup fun p hp => hunset p.1 (List.of_mem_zip hp).1
    dsimp only
    rw [hset, after_concat]
    rfl

/-- A call does to the engine what its steps do. -/
theorem call_eq (c : Call) : e.call c = e.after (e.moves c) := by
  cases c with
  | record log id outputs durability =>
    rw [call, moves, record_state]
    cases e.recorded log id outputs durability with
    | true => exact hc.settle_eq id outputs
    | false => rfl
  | reuse log id =>
    rw [call, moves, reuse_state]
    cases e.kept? log id with
    | some values => exact hc.settle_eq id values
    | none => rfl
  | _ => rfl

theorem run_eq (calls : List Call) : e.run calls = e.after (e.movesOf calls) := by
  induction calls generalizing e with
  | nil => rfl
  | cons c calls ih =>
    have hcall := hc.call_eq c
    have hnext : (e.call c).Consistent := by
      rw [hcall]
      exact hc.after _
    rw [movesOf, after_append, ← hcall]
    exact ih hnext

theorem run (calls : List Call) : (e.run calls).Consistent := by
  rw [hc.run_eq]
  exact hc.after _

end Consistent

theorem handed_settlement (e e' : Engine) (id : TransformId) (values : List Bytes) :
    e'.handed (e.settlement id values) = [] := by
  rw [settlement]
  cases e.unsetOutputs id values.length with
  | error err => rfl
  | ok outputs =>
    dsimp only
    induction outputs.zip values generalizing e' with
    | nil => rfl
    | cons p ps ih => exact ih _

theorem handed_moves (e : Engine) (c : Call) : e.handed (e.moves c) = e.answered c := by
  cases c with
  | record log id outputs durability =>
    rw [moves]
    cases e.recorded log id outputs durability with
    | true => exact e.handed_settlement e id outputs
    | false => rfl
  | reuse log id =>
    rw [moves]
    cases e.kept? log id with
    | some values => exact e.handed_settlement e id values
    | none => rfl
  | takeReady max => exact List.append_nil _
  | _ => rfl

theorem Consistent.dispatched_eq {e : Engine} (hc : e.Consistent) (calls : List Call) :
    e.dispatched calls = e.handed (e.movesOf calls) := by
  induction calls generalizing e with
  | nil => rfl
  | cons c calls ih =>
    have hcall := hc.call_eq c
    have hnext : (e.call c).Consistent := by
      rw [hcall]
      exact hc.after _
    rw [dispatched, movesOf, handed_append, handed_moves, ← hcall, ih hnext]

end Dataflow.Engine

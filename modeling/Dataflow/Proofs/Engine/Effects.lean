import Dataflow.Engine.Basic
import Dataflow.Proofs.SortedMap

/-!
# What the operations of an engine do to its tables

The operations change one entry after another. Here their whole effect on the tables is stated: how
often the datums and transforms that they meet are changed, and what an operation has found when it
changes anything at all.

* `Transform.iterate_countDown`, `Datum.iterate_await`: an entry after several changes.
* `Engine.foldl_notify`: transforms are told that an input is set.
* `Engine.setDatum_cases`, `releaseDatum_cases`, `complete_cases`, `addRule_cases`: an operation
  changes nothing, or it has found this.
* `Engine.setDatum_eq`, `complete_eq`, `enrolled_eq`: the state after an operation.
* `Engine.isUnset_setDatum`, `isUnset_complete`, `isUnset_enrolled`: the datums without a value.
-/

namespace Dataflow

open Std

instance : TransOrd DatumId := inferInstanceAs (TransCmp (compareOn DatumId.number))

instance : LawfulEqOrd DatumId where
  eq_of_compare h := congrArg DatumId.mk (LawfulEqOrd.eq_of_compare h)

instance : TransOrd TransformId := inferInstanceAs (TransCmp (compareOn TransformId.number))

instance : LawfulEqOrd TransformId where
  eq_of_compare h := congrArg TransformId.mk (LawfulEqOrd.eq_of_compare h)

/-! ## Several changes of an entry -/

/-- The last of the inputs that a transform waits for makes it ready. -/
theorem Transform.iterate_countDown {t : Transform} {n : Nat} (h : n ≤ t.pending) :
    countDown^[n] t =
      { t with
        pending := t.pending - n
        stage := if 0 < n ∧ t.pending = n then .ready else t.stage } := by
  induction n with
  | zero => simp
  | succ n ih =>
    have hlt : ¬(0 < n ∧ t.pending = n) := by omega
    have hlast : (t.pending - n == 1) = decide (t.pending = n + 1) := by
      rw [Bool.eq_iff_iff, beq_iff_eq, decide_eq_true_iff]
      omega
    rw [Function.iterate_succ_apply', ih (by omega), if_neg hlt]
    simp [countDown, becomesReady, hlast, Nat.sub_sub]

/-- The transform has been told of all its inputs that are the datum. -/
def Transform.told (id : DatumId) (t : Transform) : Transform :=
  { t with
    pending := t.pending - t.rule.inputs.count id
    stage := if t.pending = t.rule.inputs.count id then .ready else .waiting }

theorem Transform.iterate_countDown_count {t : Transform} {id : DatumId}
    (hle : t.rule.inputs.count id ≤ t.pending)
    (hstage : t.stage = if t.pending = 0 then .ready else .waiting) :
    countDown^[t.rule.inputs.count id] t = t.told id := by
  rw [iterate_countDown hle, hstage, told]
  generalize t.rule.inputs.count id = n at hle ⊢
  by_cases hall : t.pending = n
  · by_cases hzero : n = 0
    · simp [hall, hzero]
    · have hpos : 0 < n := by omega
      simp [hall, hpos]
  · have hpos : t.pending ≠ 0 := by omega
    simp [hall, hpos]

theorem Datum.iterate_await (d : Datum) (id : TransformId) (n : Nat) :
    (fun d : Datum => (d.await id).addUse)^[n] d =
      { d with
        waiters := if d.isSet then d.waiters else d.waiters ++ List.replicate n id
        uses := d.uses + n } := by
  induction n with
  | zero => simp
  | succ n ih =>
    rw [Function.iterate_succ_apply', ih]
    cases hset : d.isSet <;>
      simp_all [isSet, await, addUse, List.replicate_succ', Nat.add_assoc]

theorem Datum.iterate_addUse (d : Datum) (n : Nat) :
    addUse^[n] d = { d with uses := d.uses + n } := by
  induction n with
  | zero => rfl
  | succ n ih =>
    rw [Function.iterate_succ_apply', ih]
    rfl

theorem Datum.iterate_dropUse (d : Datum) (n : Nat) :
    dropUse^[n] d = { d with uses := d.uses - n } := by
  induction n with
  | zero => rfl
  | succ n ih =>
    rw [Function.iterate_succ_apply', ih]
    rfl

namespace Engine

/-! ## Reading -/

theorem datum_eq_ok_iff {e : Engine} {id : DatumId} {d : Datum} :
    e.datum id = .ok d ↔ e.datums.get? id = some d := by
  rw [datum]
  cases e.datums.get? id <;> simp

theorem transform_eq_ok_iff {e : Engine} {id : TransformId} {t : Transform} :
    e.transform id = .ok t ↔ e.transforms.get? id = some t := by
  rw [transform]
  cases e.transforms.get? id <;> simp

/-- The datum is there and has no value. -/
def isUnset (e : Engine) (id : DatumId) : Bool :=
  match e.datumStatus id with
  | .ok .unset => true
  | _ => false

theorem isUnset_eq (e : Engine) (id : DatumId) :
    e.isUnset id = (e.datums.get? id).any fun d => !d.isSet := by
  rw [isUnset, datumStatus, datum]
  cases e.datums.get? id with
  | none => rfl
  | some d => cases hset : d.isSet <;> simp [Except.map, Datum.status, hset]

theorem isUnset_of_get? {e : Engine} {id : DatumId} {d : Datum} (h : e.datums.get? id = some d) :
    e.isUnset id = !d.isSet := by
  rw [isUnset_eq, h, Option.any_some]

theorem datumStatus_of_isUnset {e : Engine} {x : DatumId} (h : e.isUnset x = true) :
    e.datumStatus x = .ok .unset := by
  unfold isUnset at h
  split at h
  · assumption
  · cases h

/-- The datum is there and has its value. -/
def isSet (e : Engine) (id : DatumId) : Bool :=
  match e.datumStatus id with
  | .ok .set => true
  | _ => false

theorem isSet_of_get? {e : Engine} {id : DatumId} {d : Datum} (h : e.datums.get? id = some d) :
    e.isSet id = d.isSet := by
  rw [isSet, datumStatus, datum, h]
  cases hset : d.isSet <;> simp [Except.map, Datum.status, hset]

/-! ## Changes of several entries -/

theorem foldl_datums {g : Engine → DatumId → Engine} {f : Datum → Datum}
    (hg : ∀ e id, g e id = { e with datums := e.datums.modify id f }) (ids : List DatumId)
    (e : Engine) :
    ids.foldl g e = { e with datums := ids.foldl (fun m id => m.modify id f) e.datums } := by
  induction ids generalizing e with
  | nil => rfl
  | cons id ids ih => rw [List.foldl_cons, ih, hg, List.foldl_cons]

theorem notify_eq (e : Engine) (id : TransformId) :
    e.notify id =
      { e with
        transforms := e.transforms.modify id Transform.countDown
        ready := (e.notify id).ready } := by
  rw [notify]
  cases hget : e.transforms.get? id with
  | none => simp [SortedMap.modify_of_get?_eq_none hget]
  | some t => cases hready : t.becomesReady <;> simp [hready]

/-- Telling transforms that an input is set changes only the transforms and the ready queue. -/
theorem foldl_notify (ids : List TransformId) (e : Engine) :
    ids.foldl notify e =
      { e with
        transforms := ids.foldl (fun m id => m.modify id Transform.countDown) e.transforms
        ready := (ids.foldl notify e).ready } := by
  induction ids generalizing e with
  | nil => rfl
  | cons id ids ih =>
    rw [List.foldl_cons, List.foldl_cons, ih, notify_eq e id]

/-! ## Setting a datum -/

/-- The datum has its value, and nobody has been told yet. -/
def filled (e : Engine) (id : DatumId) (d : Datum) (value : Bytes) : Engine :=
  { e with datums := e.datums.modify id fun _ => (d.fill value).2 }

theorem setDatum_cases (e : Engine) (id : DatumId) (value : Bytes) :
    (e.setDatum id value).2 = e ∨ ∃ d, e.datums.get? id = some d ∧ d.isSet = false := by
  cases hget : e.datums.get? id with
  | none => simp [setDatum, datum, hget]
  | some d =>
    cases hd : d.isSet with
    | true => simp [setDatum, datum, hget, hd]
    | false => exact .inr ⟨d, rfl, hd⟩

section

variable {e : Engine} {id : DatumId} {d : Datum} (hget : e.datums.get? id = some d)
  (hd : d.isSet = false) (value : Bytes)

include hget hd

theorem setDatum_unset :
    e.setDatum id value = (.ok (), d.waiters.foldl notify (e.filled id d value)) := by
  rw [setDatum, datum_eq_ok_iff.mpr hget]
  simp only [hd]
  rfl

theorem setDatum_eq :
    (e.setDatum id value).2 =
      { e.filled id d value with
        transforms := d.waiters.foldl (fun m id => m.modify id Transform.countDown) e.transforms
        ready := (d.waiters.foldl notify (e.filled id d value)).ready } := by
  rw [setDatum_unset hget hd]
  exact foldl_notify _ _

theorem isUnset_self : e.isUnset id = true := by
  rw [isUnset_of_get? hget, hd, Bool.not_false]

theorem get?_setDatum (x : DatumId) :
    (e.setDatum id value).2.datums.get? x =
      if x = id then some (d.fill value).2 else e.datums.get? x := by
  rw [setDatum_eq hget hd]
  show (e.datums.modify id _).get? x = _
  simp only [SortedMap.get?_modify, LawfulEqCmp.compare_eq_iff_eq]
  by_cases hx : x = id
  · rw [if_pos hx, if_pos hx, hx, hget, Option.map_some]
  · rw [if_neg hx, if_neg hx]

theorem isUnset_setDatum (x : DatumId) :
    (e.setDatum id value).2.isUnset x = (e.isUnset x && x != id) := by
  rw [isUnset_eq, isUnset_eq, get?_setDatum hget hd]
  by_cases hx : x = id
  · simp [hx, Datum.fill, Datum.isSet]
  · simp [hx]

theorem countP_isUnset_setDatum (ids : List DatumId) :
    ids.countP (e.setDatum id value).2.isUnset = ids.countP e.isUnset - ids.count id := by
  have hsplit : ids.countP e.isUnset =
      ids.countP (e.setDatum id value).2.isUnset + ids.count id := by
    induction ids with
    | nil => rfl
    | cons x ids ih =>
      rw [List.countP_cons, List.countP_cons, List.count_cons, isUnset_setDatum hget hd, ih]
      by_cases hx : x = id
      · simp [hx, isUnset_self hget hd, Nat.add_assoc]
      · simp [hx, Nat.add_right_comm]
  omega

end

/-! ## Releasing a datum -/

theorem releaseDatum_cases (e : Engine) (id : DatumId) :
    (e.releaseDatum id).2 = e ∨
      ∃ d, e.datums.get? id = some d ∧ d.uses = 0 ∧
        (e.releaseDatum id).2 = { e with datums := e.datums.erase id } := by
  cases hget : e.datums.get? id with
  | none => simp [releaseDatum, datum, hget]
  | some d =>
    by_cases huses : 0 < d.uses
    · simp [releaseDatum, datum, hget, huses]
    · exact .inr ⟨d, rfl, by omega, by simp [releaseDatum, datum, hget, huses]⟩

/-! ## Completing a transform -/

/-- The transform has left the engine, and its datums are still counted as used. -/
def left (e : Engine) (id : TransformId) : Engine :=
  { e with
    ready := (e.ready.remove id).2
    transforms := e.transforms.erase id }

theorem complete_cases (e : Engine) (id : TransformId) :
    ((e.complete id).2 = e ∧ ∀ t, e.transforms.get? id = some t → t.stage = .waiting) ∨
      ∃ t, e.transforms.get? id = some t ∧ t.stage ≠ .waiting := by
  cases hget : e.transforms.get? id with
  | none => simp [complete, transform, hget]
  | some t =>
    by_cases hstage : t.stage = .waiting
    · simp [complete, transform, hget, hstage]
    · exact .inr ⟨t, rfl, hstage⟩

section

variable {e : Engine} {id : TransformId} {t : Transform} (hget : e.transforms.get? id = some t)
  (hstage : t.stage ≠ .waiting)

include hget hstage

theorem complete_eq :
    (e.complete id).2 =
      { e.left id with
        datums := (t.rule.inputs ++ t.rule.outputs).foldl (fun m d => m.modify d Datum.dropUse)
          e.datums
        completed := e.completed + 1 } := by
  simp only [complete, transform, hget, if_neg hstage]
  rw [foldl_datums (g := unuse) (f := Datum.dropUse) fun _ _ => rfl]
  rfl

theorem get?_complete (x : DatumId) :
    (e.complete id).2.datums.get? x = (e.datums.get? x).map fun d =>
      { d with uses := d.uses - (t.rule.inputs ++ t.rule.outputs).count x } := by
  rw [complete_eq hget hstage]
  show (List.foldl _ e.datums _).get? x = _
  rw [SortedMap.get?_foldl_modify]
  exact Option.map_congr fun d _ => d.iterate_dropUse _

theorem isUnset_complete : (e.complete id).2.isUnset = e.isUnset := by
  funext x
  rw [isUnset_eq, isUnset_eq, get?_complete hget hstage, Option.any_map]
  rfl

end

/-! ## Registering a rule -/

/-- The transform that a rule becomes. -/
def newcomer (e : Engine) (rule : Rule) : Transform :=
  Transform.register ⟨e.transformIds.issued + 1⟩ rule (rule.inputs.countP e.isUnset)

/-- The rule has been registered. -/
def enrolled (e : Engine) (rule : Rule) : Engine :=
  (e.register rule (rule.inputs.countP e.isUnset)).2

theorem enrolled_eq (e : Engine) (rule : Rule) :
    e.enrolled rule =
      { e with
        transformIds := ⟨e.transformIds.issued + 1⟩
        transforms := e.transforms.insert (e.newcomer rule).id (e.newcomer rule)
        datums := rule.outputs.foldl (fun m d => m.modify d Datum.addUse)
          (rule.inputs.foldl (fun m d => m.modify d fun d => (d.await (e.newcomer rule).id).addUse)
            e.datums)
        ready := if (e.newcomer rule).pending = 0 then (e.ready.push (e.newcomer rule).id).2
          else e.ready } := by
  rw [enrolled, register]
  simp only [Numbering.next]
  rw [foldl_datums (g := useInput _) (f := fun d => (d.await _).addUse) fun _ _ => rfl,
    foldl_datums (g := useOutput) (f := Datum.addUse) fun _ _ => rfl]
  by_cases hzero : (e.newcomer rule).pending = 0
  · rw [if_pos hzero]
    exact if_pos hzero
  · rw [if_neg hzero]
    exact if_neg hzero

theorem get?_enrolled (e : Engine) (rule : Rule) (x : DatumId) :
    (e.enrolled rule).datums.get? x = (e.datums.get? x).map fun d =>
      { d with
        waiters := if d.isSet then d.waiters
          else d.waiters ++ List.replicate (rule.inputs.count x) (e.newcomer rule).id
        uses := d.uses + rule.inputs.count x + rule.outputs.count x } := by
  rw [enrolled_eq]
  show (List.foldl _ (List.foldl _ e.datums _) _).get? x = _
  rw [SortedMap.get?_foldl_modify, SortedMap.get?_foldl_modify, Option.map_map]
  refine Option.map_congr fun d _ => ?_
  rw [Function.comp_apply, Datum.iterate_await, Datum.iterate_addUse]

theorem isUnset_enrolled (e : Engine) (rule : Rule) : (e.enrolled rule).isUnset = e.isUnset := by
  funext x
  rw [isUnset_eq, isUnset_eq, get?_enrolled, Option.any_map]
  rfl

theorem firstRepeated_eq_none {seen ids : List DatumId} (h : firstRepeated seen ids = none) :
    ids.Nodup ∧ ∀ id ∈ ids, id ∉ seen := by
  induction ids generalizing seen with
  | nil => exact ⟨List.nodup_nil, by simp⟩
  | cons id ids ih =>
    rw [firstRepeated] at h
    split at h
    · cases h
    · rename_i hid
      obtain ⟨hnodup, hseen⟩ := ih h
      refine ⟨List.nodup_cons.mpr ⟨fun hmem => hseen id hmem List.mem_cons_self, hnodup⟩, ?_⟩
      refine List.forall_mem_cons.mpr ⟨hid, fun x hx hmem => ?_⟩
      exact hseen x hx (List.mem_cons_of_mem _ hmem)

theorem outputs_nodup_of_validate {rule : Rule} (h : rule.validate = .ok ()) :
    rule.outputs.Nodup := by
  rw [Rule.validate] at h
  split at h
  · cases h
  · split at h
    · cases h
    · rename_i hnone
      exact (firstRepeated_eq_none hnone).1

theorem datumsOf_eq_ok {e : Engine} {ids : List DatumId} {ds : List Datum}
    (h : e.datumsOf ids = .ok ds) : ids.map e.datums.get? = ds.map some := by
  induction ids generalizing ds with
  | nil =>
    cases h
    rfl
  | cons id ids ih =>
    rw [datumsOf, List.mapM_cons] at h
    cases hd : e.datum id with
    | error err =>
      rw [hd] at h
      cases h
    | ok d =>
      cases hrest : ids.mapM e.datum with
      | error err =>
        rw [hd, hrest] at h
        cases h
      | ok rest =>
        rw [hd, hrest] at h
        cases h
        rw [List.map_cons, List.map_cons, ih hrest, datum_eq_ok_iff.mp hd]

theorem isSome_of_datumsOf {e : Engine} {ids : List DatumId} {ds : List Datum}
    (h : e.datumsOf ids = .ok ds) : ∀ id ∈ ids, (e.datums.get? id).isSome := by
  intro id hid
  have hmem : e.datums.get? id ∈ ds.map some := by
    rw [← datumsOf_eq_ok h]
    exact List.mem_map_of_mem hid
  obtain ⟨d, -, hd⟩ := List.mem_map.mp hmem
  rw [← hd]
  rfl

theorem countP_of_datumsOf {e : Engine} {ids : List DatumId} {ds : List Datum}
    (h : e.datumsOf ids = .ok ds) : ds.countP (fun d => !d.isSet) = ids.countP e.isUnset :=
  calc
    ds.countP (fun d => !d.isSet) = (ds.map some).countP (·.any fun d => !d.isSet) := by
      rw [List.countP_map]
      rfl
    _ = (ids.map e.datums.get?).countP (·.any fun d => !d.isSet) := by rw [datumsOf_eq_ok h]
    _ = ids.countP e.isUnset := by
      rw [List.countP_map]
      exact List.countP_congr fun id _ => by rw [isUnset_eq, Function.comp_apply]

theorem addRule_cases (e : Engine) (rule : Rule) :
    (e.addRule rule).2 = e ∨
      rule.outputs.Nodup ∧ (∀ id ∈ rule.inputs ++ rule.outputs, (e.datums.get? id).isSome) ∧
        e.addRule rule = (.ok (e.newcomer rule).id, e.enrolled rule) := by
  cases hvalid : rule.validate with
  | error err => simp [addRule, hvalid]
  | ok u =>
    cases hin : e.datumsOf rule.inputs with
    | error err => simp [addRule, hvalid, hin]
    | ok inputs =>
      cases hout : e.datumsOf rule.outputs with
      | error err => simp [addRule, hvalid, hin, hout]
      | ok outputs =>
        refine .inr ⟨outputs_nodup_of_validate hvalid, ?_, ?_⟩
        · intro id hid
          exact (List.mem_append.mp hid).elim (isSome_of_datumsOf hin id)
            (isSome_of_datumsOf hout id)
        · simp only [addRule, hvalid, hin, hout, countP_of_datumsOf hin]
          rfl

end Engine

end Dataflow

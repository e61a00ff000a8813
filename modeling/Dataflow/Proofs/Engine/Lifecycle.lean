import Dataflow.Proofs.Engine.Atomicity
import Dataflow.Proofs.Engine.Dispatch

/-!
# The lives of datums and transforms

A datum is written once and keeps its value until it is released. A transform is described once, and
nothing ever happens to it but that it becomes ready, until a call completes it. What has gone does
not come back, because numbers are not issued again: whoever names it is told that it is not found.

A datum that a live transform names is not released. So a ready transform always has a key: its
inputs were set before it became ready, they are still there, and they still have their values.

* `Datum.Keeps`, `Transform.Advances`: what may become of a datum, of a transform.
* `Engine.Consistent.datum_move`, `Engine.Consistent.transform_move`: what a step makes of them.
* `Engine.Consistent.carries`: a call takes steps, and releases and completes what it says it does.
* `Engine.LacksDatum`, `Engine.LacksTransform`: the answers about what has gone.
* `Engine.Lifecycle`: what later calls leave of datums and transforms.
* `Engine.run_lifecycle`: this holds of every engine and of whatever is asked of it later.
-/

namespace Dataflow

/-- What may become of a datum that stays: it may be written, if it was not, and its uses may
change. -/
structure Datum.Keeps (d d' : Datum) : Prop where
  id_eq : d'.id = d.id
  backing_eq : d'.backing = d.backing
  value : d'.value = d.value ∨ d.value = none

namespace Datum

theorem Keeps.refl (d : Datum) : d.Keeps d := ⟨rfl, rfl, .inl rfl⟩

theorem Keeps.trans {d d' d'' : Datum} (h : d.Keeps d') (h' : d'.Keeps d'') : d.Keeps d'' := by
  refine ⟨h'.id_eq.trans h.id_eq, h'.backing_eq.trans h.backing_eq, ?_⟩
  rcases h.value with hsame | hnone
  · rw [← hsame]
    exact h'.value
  · exact .inr hnone

theorem Keeps.value_eq {d d' : Datum} (h : d.Keeps d') {v : Bytes} (hd : d.value = some v) :
    d'.value = some v := by
  rcases h.value with hsame | hnone
  · rw [hsame, hd]
  · rw [hd] at hnone
    cases hnone

end Datum

/-- What may become of a transform that stays: it may become ready. -/
structure Transform.Advances (t t' : Transform) : Prop where
  id_eq : t'.id = t.id
  rule_eq : t'.rule = t.rule
  stage : t'.stage = t.stage ∨ t.stage = .waiting ∧ t'.stage = .ready

namespace Transform

theorem Advances.refl (t : Transform) : t.Advances t := ⟨rfl, rfl, .inl rfl⟩

theorem Advances.trans {t t' t'' : Transform} (h : t.Advances t') (h' : t'.Advances t'') :
    t.Advances t'' := by
  refine ⟨h'.id_eq.trans h.id_eq, h'.rule_eq.trans h.rule_eq, ?_⟩
  rcases h.stage with hsame | ⟨hwaiting, hready⟩
  · rw [← hsame]
    exact h'.stage
  · rcases h'.stage with hsame' | ⟨hwaiting', -⟩
    · exact .inr ⟨hwaiting, hsame'.trans hready⟩
    · rw [hready] at hwaiting'
      cases hwaiting'

theorem advances_told {t : Transform} {id : DatumId}
    (hstage : t.stage = if t.pending = 0 then .ready else .waiting)
    (hle : t.rule.inputs.count id ≤ t.pending) : t.Advances (t.told id) := by
  refine ⟨rfl, rfl, ?_⟩
  rw [hstage]
  show (if t.pending = t.rule.inputs.count id then _ else _) = _ ∨
    _ ∧ (if t.pending = t.rule.inputs.count id then _ else _) = _
  by_cases hzero : t.pending = 0
  · rw [if_pos hzero, if_pos (by omega)]
    exact .inl rfl
  · rw [if_neg hzero]
    by_cases hall : t.pending = t.rule.inputs.count id
    · rw [if_pos hall]
      exact .inr ⟨rfl, rfl⟩
    · rw [if_neg hall]
      exact .inl rfl

end Transform

namespace Engine

open Std

/-! ## What a step can do -/

/-- A step that is not refused, with what it has found. -/
inductive Effective (e : Engine) : Move → Prop
  | place (backing : Backing) (value : Option Bytes) : Effective e (.place backing value)
  | set {id : DatumId} {d : Datum} (value : Bytes) (hget : e.datums.get? id = some d)
    (hd : d.isSet = false) : Effective e (.set id value)
  | release {id : DatumId} {d : Datum} (hget : e.datums.get? id = some d)
    (heq : (e.releaseDatum id).2 = { e with datums := e.datums.erase id }) :
    Effective e (.release id)
  | add {rule : Rule} (heq : (e.addRule rule).2 = e.enrolled rule) : Effective e (.add rule)
  | take (max : Nat) : Effective e (.take max)
  | complete {id : TransformId} {t : Transform} (hget : e.transforms.get? id = some t)
    (hstage : t.stage ≠ .waiting) : Effective e (.complete id)

theorem refused_or_effective (e : Engine) (m : Move) : e.move m = e ∨ e.Effective m := by
  cases m with
  | place backing value => exact .inr (.place backing value)
  | set id value =>
    exact (setDatum_cases e id value).imp_right fun ⟨_, hget, hd⟩ => .set value hget hd
  | release id =>
    exact (releaseDatum_cases e id).imp_right fun ⟨_, hget, _, heq⟩ => .release hget heq
  | add rule =>
    exact (addRule_cases e rule).imp_right fun ⟨_, _, heq⟩ => .add (congrArg Prod.snd heq)
  | take max => exact .inr (.take max)
  | complete id =>
    exact (complete_cases e id).imp And.left fun ⟨_, hget, hstage⟩ => .complete hget hstage

theorem issued_datums_move (e : Engine) (m : Move) :
    e.datumIds.issued ≤ (e.move m).datumIds.issued := by
  rcases e.refused_or_effective m with hrefused | heffective
  · exact Nat.le_of_eq (congrArg (·.datumIds.issued) hrefused).symm
  · cases heffective with
    | place backing value => exact Nat.le_succ _
    | set value hget hd =>
      exact Nat.le_of_eq (congrArg (·.datumIds.issued) (setDatum_eq hget hd value)).symm
    | release hget heq => exact Nat.le_of_eq (congrArg (·.datumIds.issued) heq).symm
    | @add rule heq =>
      rw [enrolled_eq] at heq
      exact Nat.le_of_eq (congrArg (·.datumIds.issued) heq).symm
    | take max => exact Nat.le_refl _
    | complete hget hstage =>
      exact Nat.le_of_eq (congrArg (·.datumIds.issued) (complete_eq hget hstage)).symm

/-! ## A datum in one step -/

section

variable {α : Type} {r : α → α → Prop} {o o' : Option α}

theorem rel_of_eq (hr : ∀ a, r a a) (h : o' = o) : Option.Rel r o o' := by
  rw [h]
  cases o with
  | none => exact .none
  | some a => exact .some (hr a)

theorem rel_map {f : α → α} (h : ∀ a, o = some a → r a (f a)) : Option.Rel r o (o.map f) := by
  cases o with
  | none => exact .none
  | some a => exact .some (h a rfl)

theorem none_of_rel (h : Option.Rel r o o') (hnone : o = none) : o' = none := by
  cases h with
  | none => rfl
  | some _ => cases hnone

theorem some_of_rel {a : α} (h : Option.Rel r o o') (hsome : o = some a) :
    ∃ a', o' = some a' ∧ r a a' := by
  cases h with
  | none => cases hsome
  | some hrel =>
    cases hsome
    exact ⟨_, rfl, hrel⟩

end

/-- A step keeps a datum unless it releases it, and does not bring back a datum that has gone. -/
theorem datum_move (e : Engine) {id : DatumId} (hid : id.number ≤ e.datumIds.issued) {m : Move}
    (hm : m = .release id → e.datums.get? id = none) :
    Option.Rel Datum.Keeps (e.datums.get? id) ((e.move m).datums.get? id) := by
  rcases e.refused_or_effective m with hsame | heffective
  · exact rel_of_eq Datum.Keeps.refl (by rw [hsame])
  · cases heffective with
    | place backing value =>
      -- The datum that is created has a number that has not been issued before.
      have hne : ¬compare id ⟨e.datumIds.issued + 1⟩ = .eq := fun heq => by
        rw [LawfulEqCmp.eq_of_compare heq] at hid
        exact Nat.not_succ_le_self _ hid
      exact rel_of_eq Datum.Keeps.refl ((SortedMap.get?_insert _ _ _ _).trans (if_neg hne))
    | @set x d value hget hd =>
      rw [Engine.move, get?_setDatum hget hd]
      split
      · rename_i hx
        rw [hx, hget]
        exact .some ⟨rfl, rfl, .inr (by simpa [Datum.isSet] using hd)⟩
      · exact rel_of_eq Datum.Keeps.refl rfl
    | @release x d hget heq =>
      have hne : ¬compare id x = .eq := fun heq' => by
        have hx := LawfulEqCmp.eq_of_compare heq'
        rw [← hx, hm (by rw [hx])] at hget
        cases hget
      rw [Engine.move, heq]
      exact rel_of_eq Datum.Keeps.refl ((SortedMap.get?_erase _ _ _).trans (if_neg hne))
    | add heq =>
      rw [Engine.move, heq, get?_enrolled]
      exact rel_map fun d _ => ⟨rfl, rfl, .inl rfl⟩
    | take max => exact rel_of_eq Datum.Keeps.refl rfl
    | complete hget hstage =>
      rw [Engine.move, get?_complete hget hstage]
      exact rel_map fun d _ => ⟨rfl, rfl, .inl rfl⟩

/-! ## A transform in one step -/

namespace Consistent

variable {e : Engine} (hc : e.Consistent)

include hc

theorem transforms_setDatum {x : DatumId} {d : Datum} (hget : e.datums.get? x = some d)
    (hd : d.isSet = false) (value : Bytes) (id : TransformId) :
    (e.setDatum x value).2.transforms.get? id =
      (e.transforms.get? id).map (Transform.told x) := by
  rw [setDatum_eq hget hd]
  show (List.foldl _ e.transforms _).get? id = _
  rw [SortedMap.get?_foldl_modify]
  refine Option.map_congr fun t ht => ?_
  obtain ⟨hmem, rfl⟩ := hc.mem_of_get? ht
  have hle := hc.count_le_pending hmem (isUnset_self hget hd)
  rw [hc.waiters_unset hget hd, hc.count_waitersOf hmem,
    Transform.iterate_countDown_count hle (hc.stage_eq t hmem)]

/-- A step keeps a transform unless it completes it, and does not bring back a transform that has
gone. -/
theorem transform_move {id : TransformId} (hid : id.number ≤ e.transformIds.issued) {m : Move}
    (hm : m = .complete id → e.transforms.get? id = none) :
    Option.Rel Transform.Advances (e.transforms.get? id) ((e.move m).transforms.get? id) := by
  rcases e.refused_or_effective m with hsame | heffective
  · exact rel_of_eq Transform.Advances.refl (by rw [hsame])
  · cases heffective with
    | place backing value => exact rel_of_eq Transform.Advances.refl rfl
    | @set x d value hget hd =>
      rw [Engine.move, hc.transforms_setDatum hget hd]
      refine rel_map fun t ht => ?_
      have hmem := (hc.mem_of_get? ht).1
      exact Transform.advances_told (hc.stage_eq t hmem)
        (hc.count_le_pending hmem (isUnset_self hget hd))
    | release hget heq =>
      rw [Engine.move, heq]
      exact rel_of_eq Transform.Advances.refl rfl
    | @add rule heq =>
      have hne : ¬compare id (e.newcomer rule).id = .eq := fun heq' => by
        rw [LawfulEqCmp.eq_of_compare heq'] at hid
        exact Nat.not_succ_le_self _ hid
      rw [Engine.move, heq, enrolled_eq]
      exact rel_of_eq Transform.Advances.refl
        ((SortedMap.get?_insert _ _ _ _).trans (if_neg hne))
    | take max => exact rel_of_eq Transform.Advances.refl rfl
    | @complete x t hget hstage =>
      have hne : ¬compare id x = .eq := fun heq' => by
        have hx := LawfulEqCmp.eq_of_compare heq'
        rw [← hx, hm (by rw [hx])] at hget
        cases hget
      rw [Engine.move, complete_eq hget hstage]
      exact rel_of_eq Transform.Advances.refl
        ((SortedMap.get?_erase _ _ _).trans (if_neg hne))

end Consistent

/-! ## Several steps -/

theorem datumValue_eq_ok_iff {e : Engine} {id : DatumId} {value : Option Bytes} :
    e.datumValue id = .ok value ↔ ∃ d, e.datums.get? id = some d ∧ d.value = value := by
  rw [datumValue, datum]
  cases e.datums.get? id <;> simp [Except.map]

/-- The datum was created and is not there any more. -/
def DatumRetired (e : Engine) (id : DatumId) : Prop :=
  id.number ≤ e.datumIds.issued ∧ e.datums.get? id = none

/-- The transform was registered and is not live any more. -/
def TransformRetired (e : Engine) (id : TransformId) : Prop :=
  id.number ≤ e.transformIds.issued ∧ e.transforms.get? id = none

theorem DatumRetired.move {e : Engine} {id : DatumId} (h : e.DatumRetired id) (m : Move) :
    (e.move m).DatumRetired id :=
  ⟨Nat.le_trans h.1 (e.issued_datums_move m), none_of_rel (e.datum_move h.1 fun _ => h.2) h.2⟩

namespace Consistent

variable {e : Engine} (hc : e.Consistent)

include hc

theorem transformRetired_move {id : TransformId} (h : e.TransformRetired id) (m : Move) :
    (e.move m).TransformRetired id :=
  ⟨Nat.le_trans h.1 (hc.issued_move m), none_of_rel (hc.transform_move h.1 fun _ => h.2) h.2⟩

/-- What each of some steps keeps, all of them keep. -/
theorem after_keeps {P : Engine → Prop} {moves : List Move}
    (hstep : ∀ e : Engine, e.Consistent → ∀ m ∈ moves, P e → P (e.move m)) (h : P e) :
    P (e.after moves) := by
  induction moves generalizing e with
  | nil => exact h
  | cons m moves ih =>
    exact ih (hc.move m) (fun e hc m' hm' => hstep e hc m' (List.mem_cons_of_mem _ hm'))
      (hstep e hc m List.mem_cons_self h)

/-- What each of some steps leaves in its place, all of them leave there. -/
theorem after_leaves {α : Type} {g : Engine → Option α} {r : α → α → Prop} {a : α}
    {moves : List Move} (hrefl : ∀ a, r a a) (htrans : ∀ {a b c}, r a b → r b c → r a c)
    (hstep : ∀ e : Engine, e.Consistent → ∀ m ∈ moves, ∀ a, g e = some a →
      ∃ a', g (e.move m) = some a' ∧ r a a') (h : g e = some a) :
    ∃ a', g (e.after moves) = some a' ∧ r a a' := by
  refine hc.after_keeps (P := fun e => ∃ a', g e = some a' ∧ r a a') (fun e hc m hm => ?_)
    ⟨a, h, hrefl a⟩
  rintro ⟨a', hget, hrel⟩
  obtain ⟨a'', hget', hrel'⟩ := hstep e hc m hm a' hget
  exact ⟨a'', hget', htrans hrel hrel'⟩

theorem datum_after {id : DatumId} {d : Datum} (h : e.datums.get? id = some d) {moves : List Move}
    (hmoves : .release id ∉ moves) :
    ∃ d', (e.after moves).datums.get? id = some d' ∧ d.Keeps d' := by
  refine hc.after_leaves (g := fun e => e.datums.get? id) Datum.Keeps.refl Datum.Keeps.trans ?_ h
  intro e hc m hm d hget
  exact some_of_rel (e.datum_move (hc.datums_issued id d hget)
    fun hrelease => absurd (hrelease ▸ hm) hmoves) hget

theorem transform_after {id : TransformId} {t : Transform} (h : e.transforms.get? id = some t)
    {moves : List Move} (hmoves : .complete id ∉ moves) :
    ∃ t', (e.after moves).transforms.get? id = some t' ∧ t.Advances t' := by
  refine hc.after_leaves (g := fun e => e.transforms.get? id) Transform.Advances.refl
    Transform.Advances.trans ?_ h
  intro e hc m hm t hget
  obtain ⟨hmem, rfl⟩ := hc.mem_of_get? hget
  exact some_of_rel (hc.transform_move (hc.live_issued hmem)
    fun hcomplete => absurd (hcomplete ▸ hm) hmoves) hget

end Consistent

/-! ## Calls that release and complete -/

/-- The call releases the datum. -/
inductive Releases (id : DatumId) (e : Engine) : Call → Prop
  | releaseDatum (hok : (e.releaseDatum id).1 = .ok ()) : Releases id e (.releaseDatum id)

/-- The call completes the transform, by itself or with recorded outputs. -/
inductive Completes (id : TransformId) (e : Engine) : Call → Prop
  | complete {done : Transform} (hok : (e.complete id).1 = .ok done) : Completes id e (.complete id)
  | record {σ : Type} [Store σ] {log : Log σ} {outputs : List Bytes} {durability : Durability}
    {done : Transform} (hok : (e.record log id outputs durability).1 = .ok done) :
    Completes id e (.record log id outputs durability)
  | reuse {σ : Type} [Store σ] {log : Log σ} (hok : (e.reuse log id).1 = .ok true) :
    Completes id e (.reuse log id)

theorem releaseDatum_eq_ok {e : Engine} {id : DatumId} (h : (e.releaseDatum id).1 = .ok ()) :
    (∃ d, e.datums.get? id = some d) ∧
      (e.releaseDatum id).2 = { e with datums := e.datums.erase id } := by
  unfold releaseDatum at h ⊢
  split at h
  · cases h
  · rename_i d hget
    split at h
    · cases h
    · rename_i hunused
      exact ⟨⟨d, datum_eq_ok_iff.mp hget⟩, congrArg Prod.snd (if_neg hunused)⟩

theorem complete_eq_ok {e : Engine} {id : TransformId} {done : Transform}
    (h : (e.complete id).1 = .ok done) :
    ∃ t, e.transforms.get? id = some t ∧ t.stage ≠ .waiting := by
  rw [complete] at h
  split at h
  · cases h
  · rename_i t hget
    split at h
    · cases h
    · rename_i hstage
      exact ⟨t, transform_eq_ok_iff.mp hget, hstage⟩

/-- Outputs that were found have been set, and the transform is completed. -/
theorem reuse_eq_ok {σ : Type} [Store σ] {e e' : Engine} {log log' : Log σ} {id : TransformId}
    (h : e.reuse log id = (.ok true, e', log')) :
    ∃ key values done, e.outputsKey id = .ok key ∧ e.settle id values = (.ok done, e') := by
  rw [reuse] at h
  split at h
  · cases h
  · rename_i key hkey
    split at h
    · cases h
    · cases h
    · split at h
      · cases h
      · rename_i kept hdecode
        split at h
        · cases h
        · rename_i done e₁ hsettle
          cases h
          exact ⟨key, kept.outputs, done, hkey, hsettle⟩

theorem mem_settlement {e : Engine} {id : TransformId} {values : List Bytes} {m : Move}
    (h : m ∈ e.settlement id values) : m = .complete id ∨ ∃ x value, m = .set x value := by
  rw [settlement] at h
  split at h
  · cases h
  · rcases List.mem_append.mp h with hset | hcomplete
    · obtain ⟨p, -, rfl⟩ := List.mem_map.mp hset
      exact .inr ⟨p.1, p.2, rfl⟩
    · exact .inl (List.mem_singleton.mp hcomplete)

/-- Some steps release and complete only what a call says that it has released and completed. -/
structure AnswersFor (e : Engine) (c : Call) (moves : List Move) : Prop where
  releases : ∀ id, .release id ∈ moves → Releases id e c
  completes : ∀ id, .complete id ∈ moves → Completes id e c

theorem answersFor_nil (e : Engine) (c : Call) : e.AnswersFor c [] := ⟨by simp, by simp⟩

theorem answersFor_settlement {e : Engine} {c : Call} {id : TransformId} (h : Completes id e c)
    (values : List Bytes) : e.AnswersFor c (e.settlement id values) := by
  constructor
  case releases =>
    intro x hx
    rcases mem_settlement hx with heq | ⟨y, value, heq⟩ <;> cases heq
  case completes =>
    intro x hx
    rcases mem_settlement hx with heq | ⟨y, value, heq⟩
    · cases heq
      exact h
    · cases heq

namespace Consistent

variable {e : Engine} (hc : e.Consistent)

include hc

/-- A call takes steps, and answers for what they release and complete. -/
theorem carries (c : Call) : ∃ moves, e.call c = e.after moves ∧ e.AnswersFor c moves := by
  cases c with
  | releaseDatum id =>
    cases hresult : (e.releaseDatum id).1 with
    | error err => exact ⟨[], releaseDatum_error hresult, e.answersFor_nil _⟩
    | ok u =>
      refine ⟨[.release id], rfl, fun x hx => ?_, by simp⟩
      cases List.mem_singleton.mp hx
      exact .releaseDatum hresult
  | complete id =>
    cases hresult : (e.complete id).1 with
    | error err => exact ⟨[], complete_error hresult, e.answersFor_nil _⟩
    | ok done =>
      refine ⟨[.complete id], rfl, by simp, fun x hx => ?_⟩
      cases List.mem_singleton.mp hx
      exact .complete hresult
  | record log id outputs durability =>
    rcases hrecord : e.record log id outputs durability with ⟨result, e', log'⟩
    cases result with
    | error failure =>
      refine ⟨[], ?_, e.answersFor_nil _⟩
      rw [call, hrecord]
      exact (hc.record_error hrecord).1
    | ok done =>
      -- The call says that it has completed the transform, so it answers for the settlement.
      have hcompletes : Completes id e (.record log id outputs durability) :=
        .record (congrArg Prod.fst hrecord)
      refine ⟨_, hc.call_eq _, ?_⟩
      rw [moves]
      split
      · exact answersFor_settlement hcompletes outputs
      · exact e.answersFor_nil _
  | reuse log id =>
    rcases hreuse : e.reuse log id with ⟨result, e', log'⟩
    by_cases hfound : result = .ok true
    · have hcompletes : Completes id e (.reuse log id) :=
        .reuse ((congrArg Prod.fst hreuse).trans hfound)
      refine ⟨_, hc.call_eq _, ?_⟩
      rw [moves]
      split
      · exact e.answersFor_nil _
      · exact answersFor_settlement hcompletes _
    · refine ⟨[], ?_, e.answersFor_nil _⟩
      rw [call, hreuse]
      exact hc.reuse_unchanged hreuse hfound
  | _ => exact ⟨_, hc.call_eq _, by simp [moves], by simp [moves]⟩

theorem call (c : Call) : (e.call c).Consistent := by
  rw [hc.call_eq]
  exact hc.after _

theorem datum_call {id : DatumId} {d : Datum} (h : e.datums.get? id = some d) (c : Call) :
    Releases id e c ∨ ∃ d', (e.call c).datums.get? id = some d' ∧ d.Keeps d' := by
  obtain ⟨moves, heq, hanswers⟩ := hc.carries c
  by_cases hrelease : .release id ∈ moves
  · exact .inl (hanswers.releases id hrelease)
  · rw [heq]
    exact .inr (hc.datum_after h hrelease)

theorem transform_call {id : TransformId} {t : Transform} (h : e.transforms.get? id = some t)
    (c : Call) :
    Completes id e c ∨ ∃ t', (e.call c).transforms.get? id = some t' ∧ t.Advances t' := by
  obtain ⟨moves, heq, hanswers⟩ := hc.carries c
  by_cases hcomplete : .complete id ∈ moves
  · exact .inl (hanswers.completes id hcomplete)
  · rw [heq]
    exact .inr (hc.transform_after h hcomplete)

theorem datumRetired_call {id : DatumId} (h : e.DatumRetired id) (c : Call) :
    (e.call c).DatumRetired id := by
  rw [hc.call_eq]
  exact hc.after_keeps (P := (·.DatumRetired id)) (fun _ _ m _ h => h.move m) h

theorem transformRetired_call {id : TransformId} (h : e.TransformRetired id) (c : Call) :
    (e.call c).TransformRetired id := by
  rw [hc.call_eq]
  exact hc.after_keeps (P := (·.TransformRetired id))
    (fun _ hc m _ h => hc.transformRetired_move h m) h

/-- A datum that has been released is gone. -/
theorem datumRetired_of_releases {id : DatumId} {c : Call} (h : Releases id e c) :
    (e.call c).DatumRetired id := by
  obtain ⟨hok⟩ := h
  obtain ⟨⟨d, hget⟩, heq⟩ := releaseDatum_eq_ok hok
  rw [Engine.call, heq]
  exact ⟨hc.datums_issued id d hget,
    (SortedMap.get?_erase _ _ _).trans (if_pos ReflCmp.compare_self)⟩

/-- Setting all outputs of a transform completes it. -/
theorem gone_of_settle {id : TransformId} {key : Bytes} {values : List Bytes} {done : Transform}
    {e' : Engine} (hkey : e.outputsKey id = .ok key)
    (hsettle : e.settle id values = (.ok done, e')) :
    (∃ t, e.transforms.get? id = some t) ∧ e'.transforms.get? id = none := by
  obtain ⟨t, ht, hstage⟩ := transform_of_outputsKey hkey
  have hget := transform_eq_ok_iff.mp ht
  obtain ⟨hlength, hunset⟩ := settle_eq_ok ht hsettle
  obtain ⟨e₁, hsettle₁, hcompleted⟩ := hc.settle_completes ht hstage hlength hunset
  rw [hsettle] at hsettle₁
  cases hsettle₁
  have hgone := hcompleted.gone
  rw [(hc.mem_of_get? hget).2, transform] at hgone
  refine ⟨⟨t, hget⟩, ?_⟩
  cases hget' : e'.transforms.get? id with
  | none => rfl
  | some t' =>
    rw [hget'] at hgone
    cases hgone

theorem live_of_completes {id : TransformId} {c : Call} (h : Completes id e c) :
    (∃ t, e.transforms.get? id = some t) ∧ (e.call c).transforms.get? id = none := by
  cases h with
  | complete hok =>
    obtain ⟨t, hget, hstage⟩ := complete_eq_ok hok
    refine ⟨⟨t, hget⟩, ?_⟩
    rw [Engine.call, complete_eq hget hstage]
    exact (SortedMap.get?_erase _ _ _).trans (if_pos ReflCmp.compare_self)
  | @record σ _ log outputs durability done hok =>
    rcases hrecord : e.record log id outputs durability with ⟨result, e', log'⟩
    rw [hrecord] at hok
    cases hok
    obtain ⟨key, -, hkey, -, hsettle⟩ := record_eq_ok hrecord
    rw [Engine.call, hrecord]
    exact hc.gone_of_settle hkey hsettle
  | @reuse σ _ log hok =>
    rcases hreuse : e.reuse log id with ⟨result, e', log'⟩
    rw [hreuse] at hok
    cases hok
    obtain ⟨key, values, done, hkey, hsettle⟩ := reuse_eq_ok hreuse
    rw [Engine.call, hreuse]
    exact hc.gone_of_settle hkey hsettle

/-- A transform that has been completed is gone. -/
theorem transformRetired_of_completes {id : TransformId} {c : Call} (h : Completes id e c) :
    (e.call c).TransformRetired id := by
  obtain ⟨⟨t, hget⟩, hgone⟩ := hc.live_of_completes h
  obtain ⟨hmem, rfl⟩ := hc.mem_of_get? hget
  refine ⟨?_, hgone⟩
  rw [hc.call_eq]
  exact hc.after_keeps (P := fun e' => t.id.number ≤ e'.transformIds.issued)
    (fun _ hc m _ h => Nat.le_trans h (hc.issued_move m)) (hc.live_issued hmem)

end Consistent

/-! ## Histories -/

/-- One of some calls does something. -/
def Sometime (act : Engine → Call → Prop) (e : Engine) (calls : List Call) : Prop :=
  ∃ before c after, calls = before ++ c :: after ∧ act (e.run before) c

theorem sometime_cons {act : Engine → Call → Prop} {e : Engine} {c : Call} {calls : List Call} :
    Sometime act e (c :: calls) ↔ act e c ∨ Sometime act (e.call c) calls := by
  constructor
  · rintro ⟨before, c', after, hsplit, hact⟩
    cases before with
    | nil =>
      cases hsplit
      exact .inl hact
    | cons c₁ before =>
      cases hsplit
      exact .inr ⟨before, c', after, rfl, hact⟩
  · rintro (hact | ⟨before, c', after, rfl, hact⟩)
    · exact ⟨[], c, calls, rfl, hact⟩
    · exact ⟨c :: before, c', after, rfl, hact⟩

namespace Consistent

variable {e : Engine} (hc : e.Consistent) {act : Engine → Call → Prop} {P : Engine → Prop}
  (calls : List Call)

include hc

/-- What every call keeps unless it does something is kept until a call does it. -/
theorem run_until (hcall : ∀ e : Engine, e.Consistent → ∀ c, P e → act e c ∨ P (e.call c))
    (h : P e) : Sometime act e calls ∨ P (e.run calls) := by
  induction calls generalizing e with
  | nil => exact .inr h
  | cons c calls ih =>
    rcases hcall e hc c h with hact | hnext
    · exact .inl (sometime_cons.mpr (.inl hact))
    · exact (ih (hc.call c) hnext).imp_left fun hlater => sometime_cons.mpr (.inr hlater)

/-- What every call leaves in its place unless it does something is left there until a call does
it. -/
theorem run_leaves {α : Type} {g : Engine → Option α} {r : α → α → Prop} {a : α}
    (hrefl : ∀ a, r a a) (htrans : ∀ {a b c}, r a b → r b c → r a c)
    (hcall : ∀ e : Engine, e.Consistent → ∀ c a, g e = some a →
      act e c ∨ ∃ a', g (e.call c) = some a' ∧ r a a') (h : g e = some a) :
    Sometime act e calls ∨ ∃ a', g (e.run calls) = some a' ∧ r a a' := by
  refine hc.run_until (P := fun e => ∃ a', g e = some a' ∧ r a a') calls (fun e hc c => ?_)
    ⟨a, h, hrefl a⟩
  rintro ⟨a', hget, hrel⟩
  refine (hcall e hc c a' hget).imp_right ?_
  rintro ⟨a'', hget', hrel'⟩
  exact ⟨a'', hget', htrans hrel hrel'⟩

/-- What every call keeps holds ever since a call has brought it about. -/
theorem run_since (hact : ∀ e : Engine, e.Consistent → ∀ c, act e c → P (e.call c))
    (hcall : ∀ e : Engine, e.Consistent → ∀ c, P e → P (e.call c)) (h : Sometime act e calls) :
    P (e.run calls) := by
  obtain ⟨before, c, after, rfl, hnow⟩ := h
  have hc' := hc.run before
  rw [Engine.run, List.foldl_append, List.foldl_cons]
  -- From the call on, nothing ends what holds.
  have hstays : Sometime (fun _ _ => False) ((e.run before).call c) after ∨
      P (((e.run before).call c).run after) :=
    (hc'.call c).run_until after (fun e hc c h => .inr (hcall e hc c h)) (hact _ hc' c hnow)
  exact hstays.resolve_left fun ⟨_, _, _, _, hfalse⟩ => hfalse

theorem datum_run (id : DatumId) (d : Datum) (h : e.datum id = .ok d) :
    Sometime (Releases id) e calls ∨ ∃ d', (e.run calls).datum id = .ok d' ∧ d.Keeps d' := by
  simp only [datum_eq_ok_iff] at h ⊢
  exact hc.run_leaves (g := fun e => e.datums.get? id) calls Datum.Keeps.refl Datum.Keeps.trans
    (fun _ hc c _ hget => hc.datum_call hget c) h

theorem transform_run (id : TransformId) (t : Transform) (h : e.transform id = .ok t) :
    Sometime (Completes id) e calls ∨
      ∃ t', (e.run calls).transform id = .ok t' ∧ t.Advances t' := by
  simp only [transform_eq_ok_iff] at h ⊢
  exact hc.run_leaves (g := fun e => e.transforms.get? id) calls Transform.Advances.refl
    Transform.Advances.trans (fun _ hc c _ hget => hc.transform_call hget c) h

end Consistent

/-! ## What has gone -/

/-- Nobody finds the datum, and no datum that is created takes its place. -/
structure LacksDatum (e : Engine) (id : DatumId) : Prop where
  datum : e.datum id = .error (.notFound (.datum id))
  datumValue : e.datumValue id = .error (.notFound (.datum id))
  datumStatus : e.datumStatus id = .error (.notFound (.datum id))
  setDatum : ∀ value, e.setDatum id value = (.error (.notFound (.datum id)), e)
  releaseDatum : e.releaseDatum id = (.error (.notFound (.datum id)), e)
  /-- A rule with which nothing else is wrong is refused for a datum that it names and that is not
  there, which is this one if all the others are. -/
  addRule : ∀ rule : Rule, rule.validate = .ok () → id ∈ rule.inputs ++ rule.outputs →
    ∃ x ∈ rule.inputs ++ rule.outputs, (∀ d, e.datum x ≠ .ok d) ∧
      e.addRule rule = (.error (.notFound (.datum x)), e)
  placeDatum : ∀ backing value, (e.placeDatum backing value).1 ≠ id

/-- Nobody finds the transform, it is not handed out, and no rule that is registered takes its
place. -/
structure LacksTransform (e : Engine) (id : TransformId) : Prop where
  transform : e.transform id = .error (.notFound (.transform id))
  transformStage : e.transformStage id = .error (.notFound (.transform id))
  complete : e.complete id = (.error (.notFound (.transform id)), e)
  outputsKey : e.outputsKey id = .error (.notFound (.transform id))
  record : ∀ {σ : Type} [Store σ] (log : Log σ) outputs durability,
    e.record log id outputs durability = (.error (.reported (.notFound (.transform id))), e, log)
  reuse : ∀ {σ : Type} [Store σ] (log : Log σ),
    e.reuse log id = (.error (.notFound (.transform id)), e, log)
  takeReady : ∀ max, id ∉ (e.takeReady max).1
  addRule : ∀ rule, (e.addRule rule).1 ≠ .ok id

theorem addRule_unknown {e : Engine} {rule : Rule} (hvalid : rule.validate = .ok ()) {id : DatumId}
    (hnamed : id ∈ rule.inputs ++ rule.outputs) (hgone : ∀ d, e.datum id ≠ .ok d) :
    ∃ x ∈ rule.inputs ++ rule.outputs, (∀ d, e.datum x ≠ .ok d) ∧
      e.addRule rule = (.error (.notFound (.datum x)), e) := by
  rw [addRule, hvalid]
  cases hin : e.datumsOf rule.inputs with
  | error err =>
    obtain ⟨x, hx, hunknown, rfl⟩ := datumsOf_eq_error hin
    exact ⟨x, List.mem_append_left _ hx, hunknown, rfl⟩
  | ok inputs =>
    cases hout : e.datumsOf rule.outputs with
    | error err =>
      obtain ⟨x, hx, hunknown, rfl⟩ := datumsOf_eq_error hout
      exact ⟨x, List.mem_append_right _ hx, hunknown, rfl⟩
    | ok outputs =>
      have hsome : (e.datums.get? id).isSome :=
        (List.mem_append.mp hnamed).elim (isSome_of_datumsOf hin id) (isSome_of_datumsOf hout id)
      obtain ⟨d, hd⟩ := Option.isSome_iff_exists.mp hsome
      exact absurd (datum_eq_ok_iff.mpr hd) (hgone d)

theorem addRule_eq_ok {e : Engine} {rule : Rule} {id : TransformId}
    (h : (e.addRule rule).1 = .ok id) : id.number = e.transformIds.issued + 1 := by
  rw [addRule] at h
  split at h
  · cases h
  · split at h
    · cases h
    · split at h
      · cases h
      · cases h
        rfl

theorem DatumRetired.lacksDatum {e : Engine} {id : DatumId} (h : e.DatumRetired id) :
    e.LacksDatum id := by
  have hdatum : e.datum id = .error (.notFound (.datum id)) := by rw [datum, h.2]
  constructor
  case datum => exact hdatum
  case datumValue =>
    rw [datumValue, hdatum]
    rfl
  case datumStatus =>
    rw [datumStatus, hdatum]
    rfl
  case setDatum =>
    intro value
    rw [setDatum, hdatum]
  case releaseDatum => rw [releaseDatum, hdatum]
  case addRule =>
    intro rule hvalid hnamed
    exact addRule_unknown hvalid hnamed fun d hd => by rw [hdatum] at hd; cases hd
  case placeDatum =>
    rintro backing value rfl
    exact Nat.not_succ_le_self _ h.1

theorem Consistent.lacksTransform {e : Engine} (hc : e.Consistent) {id : TransformId}
    (h : e.TransformRetired id) : e.LacksTransform id := by
  have htransform : e.transform id = .error (.notFound (.transform id)) := by rw [transform, h.2]
  have hkey : e.outputsKey id = .error (.notFound (.transform id)) := by
    rw [outputsKey, htransform]
  constructor
  case transform => exact htransform
  case transformStage =>
    rw [transformStage, htransform]
    rfl
  case complete => rw [Engine.complete, htransform]
  case outputsKey => exact hkey
  case record =>
    intro σ _ log outputs durability
    rw [record, hkey]
  case reuse =>
    intro σ _ log
    rw [reuse, hkey]
  case takeReady =>
    intro max hmem
    obtain ⟨t, ht, rfl, -⟩ := hc.ready_live id (List.mem_of_mem_take hmem)
    have hget := hc.get?_of_mem ht
    rw [h.2] at hget
    cases hget
  case addRule =>
    intro rule hok
    have hle := h.1
    rw [addRule_eq_ok hok] at hle
    exact Nat.not_succ_le_self _ hle

/-! ## What is live -/

theorem Consistent.releaseDatum_named {e : Engine} (hc : e.Consistent) {t : Transform}
    (ht : t ∈ e.liveTransforms) {x : DatumId} (hx : x ∈ t.rule.inputs ++ t.rule.outputs) :
    ∃ d, e.datum x = .ok d ∧ 0 < d.uses ∧
      e.releaseDatum x = (.error (.command (.stillUsed x d.uses)), e) := by
  obtain ⟨d, hd⟩ := Option.isSome_iff_exists.mp (hc.named t ht x hx)
  have hdatum := datum_eq_ok_iff.mpr hd
  have hpos : 0 < d.uses := by
    rw [hc.uses_eq x d hd]
    exact Nat.lt_of_lt_of_le (List.count_pos_iff.mpr hx) (count_le_usesOf ht x)
  refine ⟨d, hdatum, hpos, ?_⟩
  rw [releaseDatum, hdatum]
  exact if_pos hpos

theorem exists_mapM_ok {α β : Type} {f : α → Except Error β} {xs : List α}
    (h : ∀ x ∈ xs, ∃ y, f x = .ok y) : ∃ ys, xs.mapM f = .ok ys := by
  induction xs with
  | nil => exact ⟨[], rfl⟩
  | cons x xs ih =>
    obtain ⟨⟨y, hy⟩, hrest⟩ := List.forall_mem_cons.mp h
    obtain ⟨ys, hys⟩ := ih hrest
    refine ⟨y :: ys, ?_⟩
    rw [List.mapM_cons, hy, hys]
    rfl

/-- A transform that does not wait has a key, of the values that its inputs have. -/
theorem Consistent.outputsKey_ready {e : Engine} (hc : e.Consistent) {id : TransformId}
    {t : Transform} (ht : e.transforms.get? id = some t) (hstage : t.stage ≠ .waiting) :
    ∃ values, e.inputValues t = .ok values ∧
      e.outputsKey id = .ok (Memo.key t.rule.name values) := by
  obtain ⟨hmem, -⟩ := hc.mem_of_get? ht
  have hnone : t.rule.inputs.countP e.isUnset = 0 :=
    (hc.pending_eq t hmem).symm.trans (hc.pending_of_get? ht hstage)
  obtain ⟨values, hvalues⟩ : ∃ values, e.inputValues t = .ok values := by
    refine exists_mapM_ok fun x hx => ?_
    obtain ⟨d, hd⟩ := Option.isSome_iff_exists.mp (hc.named t hmem x (List.mem_append_left _ hx))
    have hset := List.countP_eq_zero.mp hnone x hx
    rw [isUnset_of_get? hd, Bool.not_eq_true, Bool.not_eq_false', Datum.isSet] at hset
    obtain ⟨v, hv⟩ := Option.isSome_iff_exists.mp hset
    rw [datumValue_eq_ok_iff.mpr ⟨d, hd, hv⟩]
    exact ⟨v, rfl⟩
  exact ⟨values, hvalues, outputsKey_eq (transform_eq_ok_iff.mpr ht) hvalues hstage⟩

/-! ## Every engine -/

/-- What calls that come later leave of the datums and transforms of an engine. -/
structure Lifecycle (e : Engine) (later : List Call) : Prop where
  /-- A datum stays until it is released, and is written at most once. -/
  datum : ∀ id d, e.datum id = .ok d →
    Sometime (Releases id) e later ∨ ∃ d', (e.run later).datum id = .ok d' ∧ d.Keeps d'
  value : ∀ id v, e.datumValue id = .ok (some v) →
    Sometime (Releases id) e later ∨ (e.run later).datumValue id = .ok (some v)
  setDatum : ∀ id v value, e.datumValue id = .ok (some v) →
    e.setDatum id value = (.error (.doubleWrite (.datum id)), e)
  released : ∀ id, Sometime (Releases id) e later → (e.run later).LacksDatum id
  /-- A transform stays, and at most becomes ready, until it is completed. -/
  transform : ∀ id t, e.transform id = .ok t →
    Sometime (Completes id) e later ∨ ∃ t', (e.run later).transform id = .ok t' ∧ t.Advances t'
  stage : ∀ id t, e.transform id = .ok t → t.stage = .waiting ∨ t.stage = .ready
  completed : ∀ id, Sometime (Completes id) e later → (e.run later).LacksTransform id
  /-- A datum that a live transform names is there and is not released. -/
  named : ∀ id t, e.transform id = .ok t → ∀ x ∈ t.rule.inputs ++ t.rule.outputs,
    ∃ d, e.datum x = .ok d ∧ 0 < d.uses ∧
      e.releaseDatum x = (.error (.command (.stillUsed x d.uses)), e)
  outputsKey : ∀ id t, e.transform id = .ok t → t.stage = .ready →
    ∃ values, e.inputValues t = .ok values ∧ e.outputsKey id = .ok (Memo.key t.rule.name values)

theorem Consistent.lifecycle {e : Engine} (hc : e.Consistent) (later : List Call) :
    e.Lifecycle later where
  datum := hc.datum_run later
  value id v h := by
    obtain ⟨d, hget, hd⟩ := datumValue_eq_ok_iff.mp h
    refine (hc.datum_run later id d (datum_eq_ok_iff.mpr hget)).imp_right ?_
    rintro ⟨d', hget', hkeeps⟩
    exact datumValue_eq_ok_iff.mpr ⟨d', datum_eq_ok_iff.mp hget', hkeeps.value_eq hd⟩
  setDatum id v value h := by
    obtain ⟨d, hget, hd⟩ := datumValue_eq_ok_iff.mp h
    rw [Engine.setDatum, datum_eq_ok_iff.mpr hget]
    exact if_pos (by rw [Datum.isSet, hd]; rfl)
  released id h :=
    DatumRetired.lacksDatum (hc.run_since (P := (·.DatumRetired id)) later
      (fun _ hc _ hrelease => hc.datumRetired_of_releases hrelease)
      (fun _ hc c hretired => hc.datumRetired_call hretired c) h)
  transform := hc.transform_run later
  stage id t h := by
    obtain ⟨hmem, -⟩ := hc.mem_of_get? (transform_eq_ok_iff.mp h)
    rw [hc.stage_eq t hmem]
    split
    · exact .inr rfl
    · exact .inl rfl
  completed id h :=
    (hc.run later).lacksTransform (hc.run_since (P := (·.TransformRetired id)) later
      (fun _ hc _ hcomplete => hc.transformRetired_of_completes hcomplete)
      (fun _ hc c hretired => hc.transformRetired_call hretired c) h)
  named id t h x hx := hc.releaseDatum_named (hc.mem_of_get? (transform_eq_ok_iff.mp h)).1 hx
  outputsKey id t h hready := by
    refine hc.outputsKey_ready (transform_eq_ok_iff.mp h) ?_
    rw [hready]
    decide

/-- Whatever callers have asked of a new engine, and whatever they ask of it later: a value stays
until its datum is released, a transform stays until it is completed, and what has gone does not
come back. -/
theorem run_lifecycle (earlier later : List Call) : (empty.run earlier).Lifecycle later :=
  (consistent_empty.run earlier).lifecycle later

end Engine

end Dataflow

import Dataflow.Proofs.Engine.Dispatch

/-!
# Rules and values may come in any order

A rule counts the inputs that are not set when it is registered, and is told of those that are set
later. The two are different ways to the same end: registering rules and setting datums in between
leads to the same engine, whenever which datum is set. Only in the queue the order may differ.

The proof looks at an engine from afar. Its outline has the values and the live rules, but none of
what transforms and datums count and list of each other. On outlines the steps commute, and a
consistent engine can be told from its outline, except for the queue. The queue has what it had and
what has become ready, and that can be told from the outline as well.

* `Engine.Interleaving`: rules in order, with values in any order between them.
* `Engine.Outline`, `Engine.outline`: the engine from afar.
* `Engine.Consistent.eq_of_outline`: consistent engines with one outline differ in the queue only.
* `Engine.Interleaving.outline_after`: all interleavings are accepted and lead to one outline.
* `Engine.Interleaving.grown`: what they leave in the queue.
* `Engine.run_confluent`: the result.
-/

namespace Dataflow

/-- The datum without what the transforms let it count and list. -/
def Datum.bare (d : Datum) : Datum := { d with waiters := [], uses := 0 }

namespace Engine

open Std

/-! ## Interleavings -/

/-- These steps register some rules, in order, and set some datums, in any order and at any points
between the rules. -/
inductive Interleaving : List Rule → List (DatumId × Bytes) → List Move → Prop
  | done : Interleaving [] [] []
  | add {rule : Rule} {rules : List Rule} {sets : List (DatumId × Bytes)} {moves : List Move} :
    Interleaving rules sets moves → Interleaving (rule :: rules) sets (.add rule :: moves)
  | set {rules : List Rule} {before after : List (DatumId × Bytes)} {id : DatumId} {value : Bytes}
      {moves : List Move} :
    Interleaving rules (before ++ after) moves →
      Interleaving rules (before ++ (id, value) :: after) (.set id value :: moves)

/-- The rules are valid and name datums that exist. The datums are different ones, and none of them
is set. -/
structure Open (e : Engine) (rules : List Rule) (sets : List (DatumId × Bytes)) : Prop where
  valid : ∀ rule ∈ rules, rule.validate = .ok ()
  named : ∀ rule ∈ rules, ∀ id ∈ rule.inputs ++ rule.outputs, (e.datum id).isOk
  distinct : (sets.map (·.1)).Nodup
  unset : ∀ p ∈ sets, e.datumStatus p.1 = .ok .unset

/-- The steps register rules and set datums, and none of them is refused. -/
def Accepts (e : Engine) : List Move → Prop
  | [] => True
  | .add rule :: moves => (∃ id, (e.addRule rule).1 = .ok id) ∧ (e.addRule rule).2.Accepts moves
  | .set id value :: moves =>
    (e.setDatum id value).1 = .ok () ∧ (e.setDatum id value).2.Accepts moves
  | _ => False

/-! ## Outlines -/

/-- What is left of an engine without the queue and without the bookkeeping. -/
structure Outline where
  datums : DatumId → Option Datum
  live : List (TransformId × Rule)
  datumIds : Numbering
  transformIds : Numbering
  completed : Nat

namespace Outline

def add (o : Outline) (rule : Rule) : Outline :=
  { o with
    live := o.live ++ [(⟨o.transformIds.issued + 1⟩, rule)]
    transformIds := ⟨o.transformIds.issued + 1⟩ }

def set (o : Outline) (p : DatumId × Bytes) : Outline :=
  { o with
    datums := fun x => if x = p.1 then (o.datums x).map ({ · with value := some p.2 })
      else o.datums x }

theorem set_add (o : Outline) (p : DatumId × Bytes) (rule : Rule) :
    (o.set p).add rule = (o.add rule).set p := rfl

theorem set_set (o : Outline) {p q : DatumId × Bytes} (hne : p.1 ≠ q.1) :
    (o.set p).set q = (o.set q).set p := by
  simp only [set, Outline.mk.injEq, and_true]
  funext x
  by_cases hp : x = p.1
  · subst hp
    simp [hne]
  · simp [hp]

theorem foldl_add_set (o : Outline) (rules : List Rule) (p : DatumId × Bytes) :
    rules.foldl add (o.set p) = (rules.foldl add o).set p := by
  induction rules generalizing o with
  | nil => rfl
  | cons rule rules ih => rw [List.foldl_cons, set_add, ih, List.foldl_cons]

theorem foldl_set_set (o : Outline) {sets : List (DatumId × Bytes)} {p : DatumId × Bytes}
    (hne : ∀ q ∈ sets, p.1 ≠ q.1) : sets.foldl set (o.set p) = (sets.foldl set o).set p := by
  induction sets generalizing o with
  | nil => rfl
  | cons q sets ih =>
    obtain ⟨hq, hsets⟩ := List.forall_mem_cons.mp hne
    rw [List.foldl_cons, set_set o hq, ih _ hsets, List.foldl_cons]

end Outline

def outline (e : Engine) : Outline where
  datums id := (e.datums.get? id).map Datum.bare
  live := e.liveTransforms.map fun t => (t.id, t.rule)
  datumIds := e.datumIds
  transformIds := e.transformIds
  completed := e.completed

theorem outline_setDatum {e : Engine} (hc : e.Consistent) {id : DatumId} {d : Datum}
    (hget : e.datums.get? id = some d) (hd : d.isSet = false) (value : Bytes) :
    (e.setDatum id value).2.outline = e.outline.set (id, value) := by
  have hlive := hc.live_setDatum hget hd value
  have hdatums := get?_setDatum hget hd value
  have heq := setDatum_eq hget hd value
  simp only [outline, Outline.set, Outline.mk.injEq]
  refine ⟨?_, ?_, by rw [heq]; rfl, by rw [heq]; rfl, by rw [heq]; rfl⟩
  · funext x
    rw [hdatums]
    by_cases hx : x = id
    · subst hx
      simp [hget, Datum.fill, Datum.bare]
    · simp [hx]
  · rw [hlive, List.map_map]
    rfl

theorem outline_enrolled {e : Engine} (hc : e.Consistent) (rule : Rule) :
    (e.enrolled rule).outline = e.outline.add rule := by
  have hlive := hc.live_enrolled rule
  have hdatums := get?_enrolled e rule
  have heq := enrolled_eq e rule
  simp only [outline, Outline.add, Outline.mk.injEq]
  refine ⟨?_, ?_, by rw [heq], by rw [heq], by rw [heq]⟩
  · funext x
    rw [hdatums, Option.map_map]
    rfl
  · rw [hlive, List.map_append]
    rfl

/-! ## From the outline back to the engine -/

theorem isUnset_of_outline {e e' : Engine} (h : e.outline = e'.outline) :
    e.isUnset = e'.isUnset := by
  have hbare : ∀ o : Option Datum, o.any (!·.isSet) = (o.map Datum.bare).any (!·.isSet) := by
    intro o
    rw [Option.any_map]
    rfl
  funext x
  have hx : (e.datums.get? x).map Datum.bare = (e'.datums.get? x).map Datum.bare :=
    congrFun (congrArg Outline.datums h) x
  rw [isUnset_eq, isUnset_eq, hbare, hx, ← hbare]

namespace Consistent

variable {e e' : Engine}

/-- A live transform is as if it had just been registered. -/
theorem register_eq (hc : e.Consistent) {t : Transform} (ht : t ∈ e.liveTransforms) :
    Transform.register t.id t.rule (t.rule.inputs.countP e.isUnset) = t := by
  have hpending := hc.pending_eq t ht
  have hstage := hc.stage_eq t ht
  rw [Transform.register, ← hpending, ← hstage]

theorem live_of_outline (hc : e.Consistent) (hc' : e'.Consistent) (h : e.outline = e'.outline) :
    e.liveTransforms = e'.liveTransforms := by
  have hlive (e : Engine) (hc : e.Consistent) : e.liveTransforms =
      e.outline.live.map fun p => Transform.register p.1 p.2 (p.2.inputs.countP e.isUnset) := by
    rw [outline, List.map_map]
    exact ((List.map_congr_left fun t ht => hc.register_eq ht).trans (List.map_id _)).symm
  rw [hlive e hc, hlive e' hc', h, isUnset_of_outline h]

theorem transforms_eq (hc : e.Consistent) :
    e.transforms = ⟨e.liveTransforms.map fun t => (t.id, t)⟩ := by
  refine congrArg SortedMap.mk ?_
  rw [liveTransforms, SortedMap.values, List.map_map]
  refine ((List.map_congr_left fun p hp => ?_).trans (List.map_id _)).symm
  exact Prod.ext (hc.transform_id p hp) rfl

theorem datum_eq (hc : e.Consistent) {id : DatumId} {d : Datum} (h : e.datums.get? id = some d) :
    d = { d.bare with
      waiters := if d.bare.isSet then [] else e.waitersOf id
      uses := e.usesOf id } := by
  have hwaiters : d.waiters = if d.bare.isSet then [] else e.waitersOf id := hc.waiters_eq id d h
  rw [← hwaiters, ← hc.uses_eq id d h]
  rfl

/-- Consistent engines that look alike from afar are alike, except for their queues. -/
theorem eq_of_outline (hc : e.Consistent) (hc' : e'.Consistent) (h : e.outline = e'.outline) :
    e' = { e with ready := e'.ready } := by
  have hlive := hc.live_of_outline hc' h
  have htransforms : e.transforms = e'.transforms := by
    rw [hc.transforms_eq, hc'.transforms_eq, hlive]
  have hdatums : e.datums = e'.datums := by
    refine SortedMap.ext_get? hc.datums_sorted hc'.datums_sorted fun id => ?_
    have hbare : (e.datums.get? id).map Datum.bare = (e'.datums.get? id).map Datum.bare :=
      congrFun (congrArg Outline.datums h) id
    cases hget : e.datums.get? id with
    | none =>
      rw [hget, Option.map_none, eq_comm, Option.map_eq_none_iff] at hbare
      exact hbare.symm
    | some d =>
      rw [hget, Option.map_some, eq_comm, Option.map_eq_some_iff] at hbare
      obtain ⟨d', hget', hbare⟩ := hbare
      rw [hget', hc.datum_eq hget, hc'.datum_eq hget', hbare, waitersOf, waitersOf, usesOf, usesOf,
        hlive]
  have hids : e.datumIds = e'.datumIds := congrArg Outline.datumIds h
  have hids' : e.transformIds = e'.transformIds := congrArg Outline.transformIds h
  have hcompleted : e.completed = e'.completed := congrArg Outline.completed h
  rw [hdatums, htransforms, hids, hids', hcompleted]

end Consistent

/-! ## One step of an interleaving -/

section

variable {e : Engine} {rule : Rule} {rules : List Rule} {sets before after : List (DatumId × Bytes)}
  {id : DatumId} {value : Bytes}

theorem datum_isOk_iff {x : DatumId} : (e.datum x).isOk ↔ ∃ d, e.datums.get? x = some d := by
  rw [datum]
  cases e.datums.get? x <;> simp [Except.isOk, Except.toBool]

theorem datumsOf_named {ids : List DatumId} (h : ∀ x ∈ ids, (e.datum x).isOk) :
    ∃ ds, e.datumsOf ids = .ok ds := by
  induction ids with
  | nil => exact ⟨[], rfl⟩
  | cons x ids ih =>
    obtain ⟨hx, hids⟩ := List.forall_mem_cons.mp h
    obtain ⟨d, hd⟩ := datum_isOk_iff.mp hx
    obtain ⟨ds, hds⟩ := ih hids
    rw [← datum_eq_ok_iff] at hd
    refine ⟨d :: ds, ?_⟩
    rw [datumsOf] at hds ⊢
    rw [List.mapM_cons, hd, hds]
    rfl

theorem Open.addRule_eq (h : e.Open (rule :: rules) sets) :
    e.addRule rule = (.ok (e.newcomer rule).id, e.enrolled rule) := by
  have hvalid := h.valid rule List.mem_cons_self
  have hnamed := h.named rule List.mem_cons_self
  obtain ⟨inputs, hin⟩ := datumsOf_named fun x hx => hnamed x (List.mem_append_left _ hx)
  obtain ⟨outputs, hout⟩ := datumsOf_named fun x hx => hnamed x (List.mem_append_right _ hx)
  simp only [addRule, hvalid, hin, hout, countP_of_datumsOf hin]
  rfl

theorem Open.enrolled (h : e.Open (rule :: rules) sets) : (e.enrolled rule).Open rules sets where
  valid r hr := h.valid r (List.mem_cons_of_mem _ hr)
  named r hr x hx := by
    obtain ⟨d, hd⟩ := datum_isOk_iff.mp (h.named r (List.mem_cons_of_mem _ hr) x hx)
    have hget := get?_enrolled e rule x
    rw [hd] at hget
    exact datum_isOk_iff.mpr ⟨_, hget⟩
  distinct := h.distinct
  unset p hp := by
    apply datumStatus_of_isUnset
    rw [isUnset_enrolled, isUnset, h.unset p hp]

theorem Open.exists_unset (h : e.Open rules (before ++ (id, value) :: after)) :
    ∃ d, e.datums.get? id = some d ∧ d.isSet = false := by
  have hid : e.isUnset id = true := by
    rw [isUnset, h.unset (id, value) (List.mem_append_right _ List.mem_cons_self)]
  rw [isUnset_eq, Option.any_eq_true] at hid
  simpa using hid

/-- The datums that are still to be set are others. -/
theorem Open.fresh (h : e.Open rules (before ++ (id, value) :: after)) :
    ∀ q ∈ before ++ after, id ≠ q.1 := by
  have hdistinct := h.distinct
  rw [List.map_append, List.map_cons, List.nodup_middle, List.nodup_cons, ← List.map_append]
    at hdistinct
  intro q hq heq
  exact hdistinct.1 (List.mem_map.mpr ⟨q, hq, heq.symm⟩)

theorem Open.setDatum (h : e.Open rules (before ++ (id, value) :: after)) :
    (e.setDatum id value).2.Open rules (before ++ after) := by
  obtain ⟨d, hget, hd⟩ := h.exists_unset
  have hsub : (before ++ after).Sublist (before ++ (id, value) :: after) :=
    List.Sublist.append_left (List.sublist_cons_self _ _) _
  refine ⟨h.valid, ?_, h.distinct.sublist (hsub.map _), ?_⟩
  · intro r hr x hx
    obtain ⟨d', hd'⟩ := datum_isOk_iff.mp (h.named r hr x hx)
    have hafter := get?_setDatum hget hd value x
    apply datum_isOk_iff.mpr
    by_cases hxid : x = id
    · rw [if_pos hxid] at hafter
      exact ⟨_, hafter⟩
    · rw [if_neg hxid, hd'] at hafter
      exact ⟨d', hafter⟩
  · intro q hq
    have hne := h.fresh q hq
    have hunset : e.isUnset q.1 = true := by rw [isUnset, h.unset q (hsub.subset hq)]
    apply datumStatus_of_isUnset
    rw [isUnset_setDatum hget hd, hunset]
    simpa using Ne.symm hne

end

/-! ## Whole interleavings -/

namespace Interleaving

variable {e : Engine} {rules : List Rule} {sets : List (DatumId × Bytes)} {moves : List Move}

theorem accepts (h : Interleaving rules sets moves) (hopen : e.Open rules sets) :
    e.Accepts moves := by
  induction h generalizing e with
  | done => trivial
  | add _ ih =>
    refine ⟨?_, ?_⟩
    · rw [hopen.addRule_eq]
      exact ⟨_, rfl⟩
    · rw [hopen.addRule_eq]
      exact ih hopen.enrolled
  | set _ ih =>
    obtain ⟨d, hget, hd⟩ := hopen.exists_unset
    refine ⟨?_, ih hopen.setDatum⟩
    rw [setDatum_unset hget hd]

/-- The outline does not tell when the datums were set. -/
theorem outline_after (h : Interleaving rules sets moves) (hc : e.Consistent)
    (hopen : e.Open rules sets) :
    (e.after moves).outline = sets.foldl Outline.set (rules.foldl Outline.add e.outline) := by
  induction h generalizing e with
  | done => rfl
  | @add rule rules sets moves _ ih =>
    have hstep : e.move (.add rule) = e.enrolled rule := congrArg Prod.snd hopen.addRule_eq
    have hnext := ih (hc.move (.add rule))
    rw [hstep] at hnext
    rw [after, List.foldl_cons, hstep, List.foldl_cons, ← outline_enrolled hc]
    exact hnext hopen.enrolled
  | @set rules before after id value moves _ ih =>
    obtain ⟨d, hget, hd⟩ := hopen.exists_unset
    have hnext : (Engine.after _ _).outline = _ := ih (hc.set id value) hopen.setDatum
    have hbefore : ∀ q ∈ before, (id, value).1 ≠ q.1 :=
      fun q hq => hopen.fresh q (List.mem_append_left _ hq)
    rw [outline_setDatum hc hget hd, Outline.foldl_add_set, List.foldl_append,
      Outline.foldl_set_set _ hbefore] at hnext
    rw [List.foldl_append, List.foldl_cons]
    exact hnext

end Interleaving

/-! ## The queue -/

/-- What was fulfilled still is, and the queue has what it had and what has become fulfilled. -/
structure Grown (e e' : Engine) : Prop where
  fulfilled : ∀ id, e.fulfilled id = true → e'.fulfilled id = true
  mem_ready_iff : ∀ id, id ∈ e'.ready.ids ↔
    id ∈ e.ready.ids ∨ e'.fulfilled id = true ∧ e.fulfilled id = false

theorem Grown.refl (e : Engine) : e.Grown e where
  fulfilled _ := id
  mem_ready_iff id := by
    cases e.fulfilled id <;> simp

theorem Grown.trans {e e' e'' : Engine} (h : e.Grown e') (h' : e'.Grown e'') : e.Grown e'' where
  fulfilled id := h'.fulfilled id ∘ h.fulfilled id
  mem_ready_iff id := by
    rw [h'.mem_ready_iff, h.mem_ready_iff]
    constructor
    · rintro ((hqueued | ⟨hthen, hbefore⟩) | ⟨hnow, hthen⟩)
      · exact .inl hqueued
      · exact .inr ⟨h'.fulfilled id hthen, hbefore⟩
      · refine .inr ⟨hnow, Bool.eq_false_iff.mpr fun hbefore => ?_⟩
        rw [h.fulfilled id hbefore] at hthen
        cases hthen
    · rintro (hqueued | ⟨hnow, hbefore⟩)
      · exact .inl (.inl hqueued)
      · by_cases hthen : e'.fulfilled id = true
        · exact .inl (.inr ⟨hthen, hbefore⟩)
        · exact .inr ⟨hnow, Bool.eq_false_iff.mpr hthen⟩

namespace Consistent

variable {e : Engine} (hc : e.Consistent)

include hc

theorem grown_move {m : Move} (hhanded : e.handsOut m = [])
    (hremaining : e.remaining m = e.ready.ids)
    (hlive : ∀ t ∈ e.liveTransforms, t.pending = 0 →
      ∃ u ∈ (e.move m).liveTransforms, u.id = t.id ∧ u.pending = 0) : e.Grown (e.move m) where
  fulfilled id h := by
    obtain ⟨t, ht, rfl, hzero⟩ := (hc.fulfilled_iff id).mp h
    exact ((hc.move m).fulfilled_iff t.id).mpr (hlive t ht hzero)
  mem_ready_iff id := by
    obtain ⟨news, hnews, hqueue⟩ := hc.ready_move m
    rw [hhanded, List.nil_append, hremaining] at hqueue
    rw [hqueue, List.mem_append, hnews.mem_iff]

theorem grown_add (rule : Rule) : e.Grown (e.move (.add rule)) := by
  apply hc.grown_move rfl rfl
  intro t ht hzero
  rcases addRule_cases e rule with hsame | ⟨-, -, heq⟩
  · refine ⟨t, ?_, rfl, hzero⟩
    rw [Engine.move, hsame]
    exact ht
  · refine ⟨t, ?_, rfl, hzero⟩
    rw [Engine.move, heq, hc.live_enrolled]
    exact List.mem_append_left _ ht

theorem grown_set (id : DatumId) (value : Bytes) : e.Grown (e.move (.set id value)) := by
  apply hc.grown_move rfl rfl
  intro t ht hzero
  rcases setDatum_cases e id value with hsame | ⟨d, hget, hd⟩
  · refine ⟨t, ?_, rfl, hzero⟩
    rw [Engine.move, hsame]
    exact ht
  · refine ⟨t.told id, ?_, rfl, ?_⟩
    · rw [Engine.move, hc.live_setDatum hget hd]
      exact List.mem_map_of_mem ht
    · show t.pending - t.rule.inputs.count id = 0
      omega

end Consistent

theorem Interleaving.grown {e : Engine} {rules : List Rule} {sets : List (DatumId × Bytes)}
    {moves : List Move} (h : Interleaving rules sets moves) (hc : e.Consistent) :
    e.Grown (e.after moves) := by
  induction h generalizing e with
  | done => exact .refl e
  | add _ ih => exact (hc.grown_add _).trans (ih (hc.move _))
  | set _ ih => exact (hc.grown_set _ _).trans (ih (hc.move _))

/-! ## Confluence -/

/-- Rules that are registered in one order and datums that are set in between lead to the same
engine, whenever each datum is set: whoever is ready is queued, and only the order in the queue may
differ. No step is refused. -/
theorem run_confluent (calls : List Call) {rules : List Rule} {sets : List (DatumId × Bytes)}
    {moves moves' : List Move} (hopen : (empty.run calls).Open rules sets)
    (h : Interleaving rules sets moves) (h' : Interleaving rules sets moves') :
    (empty.run calls).Accepts moves ∧ (empty.run calls).Accepts moves' ∧
      ((empty.run calls).after moves').datums = ((empty.run calls).after moves).datums ∧
      ((empty.run calls).after moves').transforms = ((empty.run calls).after moves).transforms ∧
      ((empty.run calls).after moves').ready.ids.Perm
        ((empty.run calls).after moves).ready.ids := by
  have hc := consistent_empty.run calls
  generalize empty.run calls = e at hc hopen ⊢
  have hsame : e.after moves' = { e.after moves with ready := (e.after moves').ready } := by
    apply (hc.after moves).eq_of_outline (hc.after moves')
    rw [h.outline_after hc hopen, h'.outline_after hc hopen]
  have hfulfilled : ∀ id, (e.after moves').fulfilled id = (e.after moves).fulfilled id := by
    intro id
    rw [hsame]
    rfl
  refine ⟨h.accepts hopen, h'.accepts hopen, by rw [hsame], by rw [hsame], ?_⟩
  apply (List.perm_ext_iff_of_nodup (hc.after moves').ready_nodup (hc.after moves).ready_nodup).mpr
  intro id
  rw [(h'.grown hc).mem_ready_iff, (h.grown hc).mem_ready_iff, hfulfilled]

/-- One rule reads a datum twice and another one that is set already. If both rules come before the
datums, the second rule is ready first; here the first rule comes behind its datum. -/
theorem run_confluent_twice :
    let calls : List Call := [.createDatum, .createSetDatum [5], .createDatum, .createDatum]
    let twice : Rule := { name := "twice", inputs := [⟨1⟩, ⟨2⟩, ⟨1⟩] }
    let copy : Rule := { name := "copy", inputs := [⟨3⟩], outputs := [⟨4⟩] }
    let moves : List Move := [.add twice, .add copy, .set ⟨3⟩ [8], .set ⟨1⟩ [7]]
    let moves' : List Move := [.set ⟨1⟩ [7], .add twice, .add copy, .set ⟨3⟩ [8]]
    (empty.run calls).Open [twice, copy] [(⟨1⟩, [7]), (⟨3⟩, [8])] ∧
      ((empty.run calls).after moves).ready.ids = [⟨2⟩, ⟨1⟩] ∧
      ((empty.run calls).after moves').ready.ids = [⟨1⟩, ⟨2⟩] ∧
      ((empty.run calls).after moves').datums = ((empty.run calls).after moves).datums ∧
      ((empty.run calls).after moves').transforms = ((empty.run calls).after moves).transforms := by
  intro calls twice copy moves moves'
  have hopen : (empty.run calls).Open [twice, copy] [(⟨1⟩, [7]), (⟨3⟩, [8])] := by
    constructor <;> decide +kernel
  have h : Interleaving [twice, copy] [(⟨1⟩, [7]), (⟨3⟩, [8])] moves :=
    .add (.add (@Interleaving.set _ [(⟨1⟩, [7])] [] _ _ _ (@Interleaving.set _ [] [] _ _ _ .done)))
  have h' : Interleaving [twice, copy] [(⟨1⟩, [7]), (⟨3⟩, [8])] moves' :=
    @Interleaving.set _ [] [(⟨3⟩, [8])] _ _ _ (.add (.add (@Interleaving.set _ [] [] _ _ _ .done)))
  obtain ⟨-, -, hdatums, htransforms, -⟩ := run_confluent calls hopen h h'
  exact ⟨hopen, by decide +kernel, by decide +kernel, hdatums, htransforms⟩

end Engine

end Dataflow

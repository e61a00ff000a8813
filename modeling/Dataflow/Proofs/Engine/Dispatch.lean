import Mathlib.Data.List.Induction
import Dataflow.Proofs.Engine.Steps

/-!
# The order in which transforms are handed out

A transform becomes ready when the last of its inputs is set, or when it is registered if all of
them are set by then. From that moment on it is in the history of the queue: it has been handed out
or is still queued. Transforms stand in the history in the order in which they became ready, each of
them once, and only a transform that is completed while it is queued leaves the history.

* `Engine.fulfilled`: the transform is live, and its inputs are set.
* `Engine.Consistent.move_cases`: what a step can do to the transforms and the queue.
* `Engine.Consistent.ready_move`: what one step does to the history.
* `Engine.Dispatched`: the history of the queue is right.
* `Engine.run_dispatched`: it is right after every history of calls.
-/

namespace Dataflow.Engine

/-- The transform is live, and all its inputs are set. -/
def fulfilled (e : Engine) (id : TransformId) : Bool :=
  match e.transform id with
  | .error _ => false
  | .ok t => t.rule.inputs.all e.isSet

/-- The transform has been registered, and if it is still live it waits for nothing. -/
def Settled (e : Engine) (id : TransformId) : Prop :=
  id.number ≤ e.transformIds.issued ∧ ∀ t ∈ e.liveTransforms, t.id = id → t.pending = 0

/-- What a step leaves of the queue, together with what it hands out. -/
def remaining (e : Engine) : Move → List TransformId
  | .complete id => e.ready.ids.erase id
  | _ => e.ready.ids

/-- The step leaves the transforms as they are, and the queue only gives what is handed out. -/
structure Quiet (e : Engine) (m : Move) : Prop where
  live_eq : (e.move m).liveTransforms = e.liveTransforms
  issued_eq : (e.move m).transformIds = e.transformIds
  ready_eq : e.handsOut m ++ (e.move m).ready.ids = e.remaining m

theorem quiet_of_same {e : Engine} {m : Move} (hsame : e.move m = e) (hqueue : e.handsOut m = [])
    (hremaining : e.remaining m = e.ready.ids) : e.Quiet m := by
  constructor
  case live_eq => rw [hsame]
  case issued_eq => rw [hsame]
  case ready_eq => rw [hsame, hqueue, hremaining, List.nil_append]

namespace Consistent

variable {e : Engine} (hc : e.Consistent)

include hc

theorem fulfilled_iff (id : TransformId) :
    e.fulfilled id = true ↔ ∃ t ∈ e.liveTransforms, t.id = id ∧ t.pending = 0 := by
  have hlive : ∀ t ∈ e.liveTransforms, t.pending = 0 ↔ t.rule.inputs.all e.isSet = true := by
    intro t ht
    rw [hc.pending_eq t ht, List.countP_eq_zero, List.all_eq_true]
    refine forall₂_congr fun x hx => ?_
    obtain ⟨d, hd⟩ := Option.isSome_iff_exists.mp (hc.named t ht x (List.mem_append_left _ hx))
    rw [isUnset_of_get? hd, isSet_of_get? hd, Bool.not_eq_true, Bool.not_eq_false']
  rw [fulfilled]
  cases hget : e.transform id with
  | error err =>
    have hnone : ∀ t ∈ e.liveTransforms, t.id ≠ id := by
      rintro t ht rfl
      rw [transform_eq_ok_iff.mpr (hc.get?_of_mem ht)] at hget
      cases hget
    constructor
    · intro h
      cases h
    · rintro ⟨t, ht, htid, -⟩
      exact absurd htid (hnone t ht)
  | ok t =>
    obtain ⟨ht, htid⟩ := hc.mem_of_get? (transform_eq_ok_iff.mp hget)
    refine (hlive t ht).symm.trans ⟨fun hzero => ⟨t, ht, htid, hzero⟩, ?_⟩
    rintro ⟨u, hu, hut, hzero⟩
    rwa [← hc.eq_of_id hu ht (hut.trans htid.symm)]

/-- A step that is not quiet sets a datum, registers a rule or completes a transform. -/
theorem move_cases (m : Move) :
    e.Quiet m ∨
      (∃ id value d, m = .set id value ∧ e.datums.get? id = some d ∧ d.isSet = false) ∨
      (∃ rule, m = .add rule ∧ e.addRule rule = (.ok (e.newcomer rule).id, e.enrolled rule)) ∨
      ∃ id t, m = .complete id ∧ e.transforms.get? id = some t ∧ t.stage ≠ .waiting := by
  cases m with
  | place backing value => exact .inl ⟨rfl, rfl, rfl⟩
  | set id value =>
    rcases setDatum_cases e id value with hsame | ⟨d, hget, hd⟩
    · exact .inl (quiet_of_same hsame rfl rfl)
    · exact .inr (.inl ⟨id, value, d, rfl, hget, hd⟩)
  | release id =>
    rcases releaseDatum_cases e id with hsame | ⟨d, -, -, heq⟩
    · exact .inl (quiet_of_same hsame rfl rfl)
    · have hlive := congrArg liveTransforms heq
      have hissued := congrArg Engine.transformIds heq
      have hready := congrArg (·.ready.ids) heq
      exact .inl ⟨hlive, hissued, hready⟩
  | add rule =>
    rcases addRule_cases e rule with hsame | ⟨-, -, heq⟩
    · exact .inl (quiet_of_same hsame rfl rfl)
    · exact .inr (.inr (.inl ⟨rule, rfl, heq⟩))
  | take max => exact .inl ⟨rfl, rfl, List.take_append_drop max _⟩
  | complete id =>
    rcases complete_cases e id with ⟨hsame, hwaiting⟩ | ⟨t, hget, hstage⟩
    · refine .inl (quiet_of_same hsame rfl (List.erase_of_not_mem fun hmem => ?_))
      obtain ⟨t, ht, rfl, hzero⟩ := hc.ready_live id hmem
      have hready := hc.stage_eq t ht
      rw [if_pos hzero, hwaiting t (hc.get?_of_mem ht)] at hready
      cases hready
    · exact .inr (.inr (.inr ⟨id, t, rfl, hget, hstage⟩))

theorem issued_move (m : Move) : e.transformIds.issued ≤ (e.move m).transformIds.issued := by
  rcases hc.move_cases m with hquiet | ⟨id, value, d, rfl, hget, hd⟩ | ⟨rule, rfl, heq⟩ |
    ⟨id, t, rfl, hget, hstage⟩
  · exact Nat.le_of_eq (congrArg Numbering.issued hquiet.issued_eq.symm)
  · exact Nat.le_of_eq (congrArg (·.transformIds.issued) (setDatum_eq hget hd value)).symm
  · rw [Engine.move, heq, enrolled_eq]
    exact Nat.le_succ _
  · exact Nat.le_of_eq (congrArg (·.transformIds.issued) (complete_eq hget hstage)).symm

/-- A step registers transforms under new numbers and gives those that are live nothing more to wait
for. -/
theorem live_move (m : Move) {t : Transform} (ht : t ∈ (e.move m).liveTransforms) :
    e.transformIds.issued < t.id.number ∨
      ∃ u ∈ e.liveTransforms, u.id = t.id ∧ t.pending ≤ u.pending := by
  rcases hc.move_cases m with hquiet | ⟨id, value, d, rfl, hget, hd⟩ | ⟨rule, rfl, heq⟩ |
    ⟨id, u, rfl, hget, hstage⟩
  · rw [hquiet.live_eq] at ht
    exact .inr ⟨t, ht, rfl, Nat.le_refl _⟩
  · rw [Engine.move, hc.live_setDatum hget hd] at ht
    obtain ⟨u, hu, rfl⟩ := List.mem_map.mp ht
    exact .inr ⟨u, hu, rfl, Nat.sub_le _ _⟩
  · rw [Engine.move, heq, hc.live_enrolled] at ht
    rcases List.mem_append.mp ht with hold | hnew
    · exact .inr ⟨t, hold, rfl, Nat.le_refl _⟩
    · rw [List.mem_singleton.mp hnew]
      exact .inl (Nat.lt_succ_self _)
  · exact .inr ⟨t, ((hc.mem_live_complete hget hstage).mp ht).1, rfl, Nat.le_refl _⟩

theorem settled_of_fulfilled {id : TransformId} (h : e.fulfilled id = true) : e.Settled id := by
  obtain ⟨t, ht, rfl, hzero⟩ := (hc.fulfilled_iff id).mp h
  refine ⟨hc.live_issued ht, fun u hu hut => ?_⟩
  rwa [hc.eq_of_id hu ht hut]

theorem settled_move {id : TransformId} (h : e.Settled id) (m : Move) : (e.move m).Settled id := by
  obtain ⟨hissued, hzero⟩ := h
  refine ⟨Nat.le_trans hissued (hc.issued_move m), ?_⟩
  rintro t ht rfl
  rcases hc.live_move m ht with hnew | ⟨u, hu, hut, hle⟩
  · omega
  · have huz := hzero u hu hut
    omega

/-- A settled transform does not become ready once more. -/
theorem fulfilled_of_settled {id : TransformId} (h : e.Settled id) {m : Move}
    (h' : (e.move m).fulfilled id = true) : e.fulfilled id = true := by
  obtain ⟨hissued, hzero⟩ := h
  obtain ⟨t, ht, rfl, -⟩ := ((hc.move m).fulfilled_iff id).mp h'
  rcases hc.live_move m ht with hnew | ⟨u, hu, hut, -⟩
  · omega
  · exact (hc.fulfilled_iff t.id).mpr ⟨u, hu, hut, hzero u hu hut⟩

end Consistent

/-! ## The queue in one step -/

/-- The step registers the transform or sets one of its inputs. -/
def Turns (e : Engine) (id : TransformId) : Move → Prop
  | .add rule => (e.addRule rule).1 = .ok id
  | .set x _ => e.isUnset x = true ∧ ∃ t, e.transform id = .ok t ∧ x ∈ t.rule.inputs
  | _ => False

/-- These transforms become ready in a step, in ascending order. -/
structure News (e : Engine) (m : Move) (news : List TransformId) : Prop where
  ascend : news.Pairwise fun a b => a.number < b.number
  mem_iff : ∀ id, id ∈ news ↔ (e.move m).fulfilled id = true ∧ e.fulfilled id = false
  turns : ∀ id ∈ news, e.Turns id m

namespace Consistent

variable {e : Engine} (hc : e.Consistent)

include hc

theorem no_news {m : Move} (h : ∀ t ∈ (e.move m).liveTransforms, t ∈ e.liveTransforms) :
    e.News m [] := by
  refine ⟨List.Pairwise.nil, fun id => ⟨by simp, ?_⟩, by simp⟩
  rintro ⟨hnow, hbefore⟩
  obtain ⟨t, ht, htid, hzero⟩ := ((hc.move m).fulfilled_iff id).mp hnow
  rw [(hc.fulfilled_iff id).mpr ⟨t, h t ht, htid, hzero⟩] at hbefore
  cases hbefore

theorem news_set {id : DatumId} {d : Datum} (hget : e.datums.get? id = some d)
    (hd : d.isSet = false) (value : Bytes) :
    e.News (.set id value) ((e.liveTransforms.filter fun t =>
      0 < t.rule.inputs.count id ∧ t.pending = t.rule.inputs.count id).map (·.id)) := by
  constructor
  case ascend => exact List.pairwise_map.mpr (hc.live_ascend.sublist List.filter_sublist)
  case mem_iff =>
    intro x
    rw [(hc.move _).fulfilled_iff, ← Bool.not_eq_true, hc.fulfilled_iff]
    rw [Engine.move, hc.live_setDatum hget hd]
    constructor
    · intro hx
      obtain ⟨t, ht, rfl⟩ := List.mem_map.mp hx
      obtain ⟨ht, hall⟩ := List.mem_filter.mp ht
      obtain ⟨hpos, heq⟩ := of_decide_eq_true hall
      have hgone := Nat.sub_eq_zero_of_le (Nat.le_of_eq heq)
      refine ⟨⟨t.told id, List.mem_map_of_mem ht, rfl, hgone⟩, ?_⟩
      rintro ⟨u, hu, hut, hzero⟩
      rw [hc.eq_of_id hu ht hut] at hzero
      omega
    · rintro ⟨⟨t', ht', rfl, hnow⟩, hbefore⟩
      obtain ⟨t, ht, rfl⟩ := List.mem_map.mp ht'
      have hpos : t.pending ≠ 0 := fun hzero => hbefore ⟨t, ht, rfl, hzero⟩
      have hle := hc.count_le_pending ht (isUnset_self hget hd)
      have hgone : t.pending - t.rule.inputs.count id = 0 := hnow
      have hall : 0 < t.rule.inputs.count id ∧ t.pending = t.rule.inputs.count id := by omega
      exact List.mem_map.mpr ⟨t, List.mem_filter.mpr ⟨ht, decide_eq_true hall⟩, rfl⟩
  case turns =>
    intro x hx
    obtain ⟨t, ht, rfl⟩ := List.mem_map.mp hx
    obtain ⟨ht, hall⟩ := List.mem_filter.mp ht
    have hcount := of_decide_eq_true hall
    exact ⟨isUnset_self hget hd, t, transform_eq_ok_iff.mpr (hc.get?_of_mem ht),
      List.count_pos_iff.mp hcount.1⟩

theorem news_add {rule : Rule}
    (heq : e.addRule rule = (.ok (e.newcomer rule).id, e.enrolled rule)) :
    e.News (.add rule)
      (if (e.newcomer rule).pending = 0 then [(e.newcomer rule).id] else []) := by
  have hmove : (e.move (.add rule)).liveTransforms = e.liveTransforms ++ [e.newcomer rule] := by
    rw [Engine.move, heq]
    exact hc.live_enrolled rule
  have hmem : ∀ id, id ∈ (if (e.newcomer rule).pending = 0 then [(e.newcomer rule).id] else []) ↔
      (e.newcomer rule).id = id ∧ (e.newcomer rule).pending = 0 := by
    intro id
    by_cases hzero : (e.newcomer rule).pending = 0
    · simp [hzero, eq_comm]
    · simp [hzero]
  constructor
  case ascend =>
    split
    · exact List.pairwise_singleton _ _
    · exact List.Pairwise.nil
  case mem_iff =>
    intro id
    rw [hmem, (hc.move _).fulfilled_iff, ← Bool.not_eq_true, hc.fulfilled_iff, hmove]
    constructor
    · rintro ⟨rfl, hzero⟩
      refine ⟨⟨_, List.mem_append_right _ (List.mem_singleton_self _), rfl, hzero⟩, ?_⟩
      rintro ⟨t, ht, htid, -⟩
      exact hc.newcomer_fresh rule t ht htid
    · rintro ⟨⟨t, ht, htid, hzero⟩, hbefore⟩
      rcases List.mem_append.mp ht with hold | hnew
      · exact absurd ⟨t, hold, htid, hzero⟩ hbefore
      · rw [List.mem_singleton.mp hnew] at htid hzero
        exact ⟨htid, hzero⟩
  case turns =>
    intro id hid
    rw [← ((hmem id).mp hid).1]
    exact congrArg Prod.fst heq

/-- In a step the transforms that become ready are put behind those that remain. -/
theorem ready_move (m : Move) : ∃ news, e.News m news ∧
    e.handsOut m ++ (e.move m).ready.ids = e.remaining m ++ news := by
  rcases hc.move_cases m with hquiet | ⟨id, value, d, rfl, hget, hd⟩ | ⟨rule, rfl, heq⟩ |
    ⟨id, t, rfl, hget, hstage⟩
  · refine ⟨[], hc.no_news ?_, ?_⟩
    · rw [hquiet.live_eq]
      exact fun _ ht => ht
    · rw [hquiet.ready_eq, List.append_nil]
  · exact ⟨_, hc.news_set hget hd value, hc.ready_setDatum hget hd value⟩
  · refine ⟨_, hc.news_add heq, ?_⟩
    rw [Engine.move, heq]
    exact hc.ready_enrolled rule
  · refine ⟨[], hc.no_news fun u hu => ((hc.mem_live_complete hget hstage).mp hu).1, ?_⟩
    rw [Engine.move, complete_eq hget hstage]
    exact (List.append_nil _).symm

end Consistent

/-! ## Histories -/

/-- The transforms that some steps hand out, and then those that are queued after the steps. -/
def history (e : Engine) (moves : List Move) : List TransformId :=
  e.handed moves ++ (e.after moves).ready.ids

def WasFulfilled (e : Engine) (moves : List Move) (id : TransformId) : Prop :=
  ∃ e' ∈ e.moments moves, e'.fulfilled id = true

/-- The first moment at which the transform is fulfilled, counted in steps. -/
def moment (e : Engine) (moves : List Move) (id : TransformId) : Nat :=
  (e.moments moves).findIdx (·.fulfilled id)

/-- The transform is completed while it is queued. -/
def Withdrawn (e : Engine) (moves : List Move) (id : TransformId) : Prop :=
  ∃ before after, moves = before ++ .complete id :: after ∧ id ∈ (e.after before).ready.ids

theorem length_moments (e : Engine) (moves : List Move) :
    (e.moments moves).length = moves.length + 1 := by
  induction moves generalizing e with
  | nil => rfl
  | cons m moves ih => rw [moments, List.length_cons, List.length_cons, ih]

theorem wasFulfilled_concat {e : Engine} {moves : List Move} {m : Move} {id : TransformId} :
    e.WasFulfilled (moves ++ [m]) id ↔
      e.WasFulfilled moves id ∨ ((e.after moves).move m).fulfilled id = true := by
  rw [WasFulfilled, moments_concat, after_concat]
  simp only [List.mem_append, List.mem_singleton, or_and_right, exists_or, exists_eq_left]
  rfl

theorem withdrawn_concat {e : Engine} {moves : List Move} {m : Move} {id : TransformId} :
    e.Withdrawn (moves ++ [m]) id ↔
      e.Withdrawn moves id ∨ m = .complete id ∧ id ∈ (e.after moves).ready.ids := by
  constructor
  · rintro ⟨before, after, hsplit, hmem⟩
    rcases List.eq_nil_or_concat after with rfl | ⟨after, last, rfl⟩
    · obtain ⟨rfl, hlast⟩ := List.append_inj' hsplit rfl
      exact .inr ⟨(List.cons.inj hlast).1, hmem⟩
    · rw [List.concat_eq_append, ← List.cons_append, ← List.append_assoc] at hsplit
      obtain ⟨rfl, -⟩ := List.append_inj' hsplit rfl
      exact .inl ⟨before, after, rfl, hmem⟩
  · rintro (⟨before, after, rfl, hmem⟩ | ⟨rfl, hmem⟩)
    · exact ⟨before, after ++ [m], by rw [List.append_assoc, List.cons_append], hmem⟩
    · exact ⟨moves, [], rfl, hmem⟩

/-- The moment at which a transform became ready does not change later on. -/
theorem moment_concat_old {e : Engine} {moves : List Move} {id : TransformId}
    (h : e.WasFulfilled moves id) (m : Move) :
    e.moment (moves ++ [m]) id = e.moment moves id ∧ e.moment moves id < moves.length + 1 := by
  have hlt : (e.moments moves).findIdx (·.fulfilled id) < (e.moments moves).length :=
    List.findIdx_lt_length_of_exists h
  rw [moment, moment, moments_concat, List.findIdx_append, if_pos hlt]
  rw [length_moments] at hlt
  exact ⟨rfl, hlt⟩

theorem moment_concat_new {e : Engine} {moves : List Move} {m : Move} {id : TransformId}
    (h : ¬e.WasFulfilled moves id) (hnow : ((e.after moves).move m).fulfilled id = true) :
    e.moment (moves ++ [m]) id = moves.length + 1 := by
  have hnone : (e.moments moves).findIdx (·.fulfilled id) = (e.moments moves).length := by
    refine List.findIdx_eq_length.mpr fun e' he' => ?_
    exact Bool.eq_false_iff.mpr fun htrue => h ⟨e', he', htrue⟩
  rw [moment, moments_concat, List.findIdx_append, hnone, if_neg (Nat.lt_irrefl _), length_moments,
    after_concat, List.findIdx_cons, hnow]
  exact Nat.zero_add _

namespace Consistent

variable {e : Engine} (hc : e.Consistent)

include hc

theorem fulfilled_of_ready {id : TransformId} (h : id ∈ e.ready.ids) : e.fulfilled id = true := by
  rw [hc.fulfilled_iff]
  exact hc.ready_live id h

theorem settled_of_wasFulfilled {moves : List Move} {id : TransformId}
    (h : e.WasFulfilled moves id) : (e.after moves).Settled id := by
  induction moves using List.reverseRecOn with
  | nil =>
    obtain ⟨e', he', hful⟩ := h
    rw [List.mem_singleton.mp he'] at hful
    exact hc.settled_of_fulfilled hful
  | append_singleton moves m ih =>
    rw [after_concat]
    rcases wasFulfilled_concat.mp h with hold | hnow
    · exact (hc.after moves).settled_move (ih hold) m
    · exact ((hc.after moves).move m).settled_of_fulfilled hnow

theorem wasFulfilled_of_ready {moves : List Move} {id : TransformId}
    (h : id ∈ (e.after moves).ready.ids) : e.WasFulfilled moves id :=
  ⟨_, e.after_mem_moments moves, (hc.after moves).fulfilled_of_ready h⟩

theorem wasFulfilled_of_withdrawn {moves : List Move} {id : TransformId}
    (h : e.Withdrawn moves id) : e.WasFulfilled moves id := by
  induction moves using List.reverseRecOn with
  | nil =>
    obtain ⟨before, after, hsplit, -⟩ := h
    exact absurd hsplit.symm (by simp)
  | append_singleton moves m ih =>
    refine wasFulfilled_concat.mpr (.inl ?_)
    rcases withdrawn_concat.mp h with hold | ⟨-, hmem⟩
    · exact ih hold
    · exact hc.wasFulfilled_of_ready hmem

/-- What becomes ready has never been ready before. -/
theorem not_wasFulfilled_of_news {moves : List Move} {m : Move} {news : List TransformId}
    (hnews : (e.after moves).News m news) {id : TransformId} (hid : id ∈ news) :
    ¬e.WasFulfilled moves id := by
  intro h
  obtain ⟨hnow, hbefore⟩ := (hnews.mem_iff id).mp hid
  rw [(hc.after moves).fulfilled_of_settled (hc.settled_of_wasFulfilled h) hnow] at hbefore
  cases hbefore

end Consistent

/-- What a step leaves of the history of the steps before it. -/
def survivors (e : Engine) (moves : List Move) (m : Move) : List TransformId :=
  e.handed moves ++ (e.after moves).remaining m

theorem survivors_sublist (e : Engine) (moves : List Move) (m : Move) :
    (e.survivors moves m).Sublist (e.history moves) := by
  refine List.Sublist.append_left ?_ _
  cases m with
  | complete id => exact List.erase_sublist
  | _ => exact List.Sublist.refl _

theorem mem_remaining_iff {e : Engine} (hnodup : e.ready.ids.Nodup) (m : Move) (id : TransformId) :
    id ∈ e.remaining m ↔ id ∈ e.ready.ids ∧ m ≠ .complete id := by
  cases m with
  | complete id' =>
    rw [remaining, hnodup.mem_erase_iff, and_comm, Ne, Ne, Move.complete.injEq, eq_comm]
  | _ => simp [remaining]

theorem mem_survivors_iff {e : Engine} {moves : List Move} (hnodup : (e.history moves).Nodup)
    (m : Move) (id : TransformId) :
    id ∈ e.survivors moves m ↔
      id ∈ e.history moves ∧ ¬(m = .complete id ∧ id ∈ (e.after moves).ready.ids) := by
  obtain ⟨-, hqueue, hdisjoint⟩ := List.nodup_append.mp hnodup
  rw [survivors, history, List.mem_append, List.mem_append, mem_remaining_iff hqueue]
  constructor
  · rintro (hhanded | ⟨hqueued, hne⟩)
    · exact ⟨.inl hhanded, fun hdone => hdisjoint id hhanded id hdone.2 rfl⟩
    · exact ⟨.inr hqueued, fun hdone => hne hdone.1⟩
  · rintro ⟨hhanded | hqueued, hleft⟩
    · exact .inl hhanded
    · exact .inr ⟨hqueued, fun hm => hleft ⟨hm, hqueued⟩⟩

/-- A step puts its news behind what it leaves of the history. -/
theorem Consistent.history_concat {e : Engine} (hc : e.Consistent) (moves : List Move) (m : Move) :
    ∃ news, (e.after moves).News m news ∧
      e.history (moves ++ [m]) = e.survivors moves m ++ news := by
  obtain ⟨news, hnews, hqueue⟩ := (hc.after moves).ready_move m
  refine ⟨news, hnews, ?_⟩
  rw [history, after_concat, handed_append, handed, handed, List.append_nil, List.append_assoc,
    hqueue, survivors, List.append_assoc]

/-! ## Dispatch -/

/-- A list of transforms holds those that became ready in some steps and were not withdrawn. It
holds each of them once, in the order in which they became ready; those that became ready in one
step are in the order of their registration. -/
structure Dispatched (e : Engine) (moves : List Move) (ids : List TransformId) : Prop where
  nodup : ids.Nodup
  mem_iff : ∀ id, id ∈ ids ↔ e.WasFulfilled moves id ∧ ¬e.Withdrawn moves id
  ordered : ids.Pairwise fun a b => e.moment moves a < e.moment moves b ∨
    e.moment moves a = e.moment moves b ∧ a.number < b.number
  turns : ∀ id ∈ ids, ∃ before m after, moves = before ++ m :: after ∧
    e.moment moves id = before.length + 1 ∧ (e.after before).Turns id m

theorem Dispatched.step {e : Engine} (hc : e.Consistent) {moves : List Move}
    (h : e.Dispatched moves (e.history moves)) (m : Move) :
    e.Dispatched (moves ++ [m]) (e.history (moves ++ [m])) := by
  obtain ⟨news, hnews, hhistory⟩ := hc.history_concat moves m
  have hsub := e.survivors_sublist moves m
  have hold : ∀ id ∈ e.survivors moves m, e.WasFulfilled moves id :=
    fun id hid => ((h.mem_iff id).mp (hsub.subset hid)).1
  -- The moments of the survivors stay as they are; the news have never been fulfilled before, so
  -- their moment is this step, and it comes after all others.
  have hnew : ∀ id ∈ news, ¬e.WasFulfilled moves id :=
    fun _ hid => hc.not_wasFulfilled_of_news hnews hid
  have hmoment : ∀ id ∈ news, e.moment (moves ++ [m]) id = moves.length + 1 :=
    fun id hid => moment_concat_new (hnew id hid) ((hnews.mem_iff id).mp hid).1
  rw [hhistory]
  constructor
  case nodup =>
    refine List.nodup_append.mpr ⟨h.nodup.sublist hsub, ?_, ?_⟩
    · refine hnews.ascend.imp ?_
      rintro a b hlt rfl
      exact Nat.lt_irrefl _ hlt
    · rintro a ha b hb rfl
      exact hnew a hb (hold a ha)
  case mem_iff =>
    intro id
    rw [List.mem_append, mem_survivors_iff h.nodup, h.mem_iff, wasFulfilled_concat,
      withdrawn_concat]
    constructor
    · rintro (⟨⟨hwas, hstays⟩, hleft⟩ | hid)
      · exact ⟨.inl hwas, not_or.mpr ⟨hstays, hleft⟩⟩
      · refine ⟨.inr ((hnews.mem_iff id).mp hid).1, ?_⟩
        rintro (hgone | ⟨-, hqueued⟩)
        · exact hnew id hid (hc.wasFulfilled_of_withdrawn hgone)
        · exact hnew id hid (hc.wasFulfilled_of_ready hqueued)
    · rintro ⟨hful, hnone⟩
      obtain ⟨hstays, hleft⟩ := not_or.mp hnone
      by_cases hwas : e.WasFulfilled moves id
      · exact .inl ⟨⟨hwas, hstays⟩, hleft⟩
      · have hnow := hful.resolve_left hwas
        refine .inr ((hnews.mem_iff id).mpr ⟨hnow, Bool.eq_false_iff.mpr fun hbefore => ?_⟩)
        exact hwas ⟨_, e.after_mem_moments moves, hbefore⟩
  case ordered =>
    refine List.pairwise_append.mpr ⟨?_, ?_, ?_⟩
    · refine List.Pairwise.imp_of_mem ?_ (h.ordered.sublist hsub)
      intro a b ha hb hab
      rwa [(moment_concat_old (hold a ha) m).1, (moment_concat_old (hold b hb) m).1]
    · refine List.Pairwise.imp_of_mem ?_ hnews.ascend
      intro a b ha hb hab
      exact .inr ⟨by rw [hmoment a ha, hmoment b hb], hab⟩
    · intro a ha b hb
      obtain ⟨hsame, hlt⟩ := moment_concat_old (hold a ha) m
      rw [hsame, hmoment b hb]
      exact .inl hlt
  case turns =>
    refine List.forall_mem_append.mpr ⟨fun id hid => ?_, fun id hid => ?_⟩
    · obtain ⟨before, m', after, hsplit, hat, hturns⟩ := h.turns id (hsub.subset hid)
      refine ⟨before, m', after ++ [m], ?_, ?_, hturns⟩
      · rw [hsplit, List.append_assoc, List.cons_append]
      · rw [(moment_concat_old (hold id hid) m).1, hat]
    · exact ⟨moves, m, [], rfl, hmoment id hid, hnews.turns id hid⟩

/-- Whatever steps a new engine takes, its history is right. -/
theorem history_dispatched (moves : List Move) : empty.Dispatched moves (empty.history moves) := by
  induction moves using List.reverseRecOn with
  | nil =>
    have hnot : ∀ id, ¬empty.WasFulfilled [] id := by
      rintro id ⟨e', he', hful⟩
      rw [List.mem_singleton.mp he'] at hful
      cases hful
    constructor
    case nodup => exact List.nodup_nil
    case mem_iff =>
      exact fun id => ⟨fun hid => (List.not_mem_nil hid).elim, fun h => (hnot id h.1).elim⟩
    case ordered => exact List.Pairwise.nil
    case turns => exact fun id hid => (List.not_mem_nil hid).elim
  | append_singleton moves m ih => exact ih.step consistent_empty m

/-- Whatever callers ask of a new engine, each transform is handed out or queued once, as soon as
its inputs are set, and in that order. So it is between the steps of a call, too. -/
theorem run_dispatched (calls : List Call) :
    empty.run calls = empty.after (empty.movesOf calls) ∧
      empty.Dispatched (empty.movesOf calls)
        (empty.dispatched calls ++ (empty.run calls).ready.ids) ∧
      ∀ k, empty.Dispatched ((empty.movesOf calls).take k)
        (empty.history ((empty.movesOf calls).take k)) := by
  have hrun := consistent_empty.run_eq calls
  have hdispatched := consistent_empty.dispatched_eq calls
  refine ⟨hrun, ?_, fun k => history_dispatched _⟩
  rw [hrun, hdispatched]
  exact history_dispatched _

-- The second transform becomes ready with the third, when their input is set; the first is handed
-- out after both, because it waits for one more datum.
example :
    let calls : List Call := [
      .createDatum, .createDatum,
      .addRule { name := "join", inputs := [⟨2⟩, ⟨1⟩] },
      .addRule { name := "copy", inputs := [⟨1⟩] },
      .addRule { name := "pair", inputs := [⟨1⟩, ⟨1⟩] },
      .setDatum ⟨1⟩ [], .takeReady 1, .setDatum ⟨2⟩ []]
    empty.dispatched calls = [⟨2⟩] ∧ (empty.run calls).ready.ids = [⟨3⟩, ⟨1⟩] := by
  decide +kernel

end Dataflow.Engine

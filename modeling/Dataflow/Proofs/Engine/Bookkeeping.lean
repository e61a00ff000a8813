import Dataflow.Proofs.Engine.Steps

/-!
# The bookkeeping of an engine

A transform counts the inputs that it waits for, a datum lists the transforms that wait for it, and
it counts the transforms that use it. Whatever callers ask, the three agree. So a list never names a
transform that has left, and no count is brought below zero.

* `Engine.Bookkept`: the agreement, and what follows from it for the operations.
* `Engine.run_bookkept`: it holds after every history of calls.
-/

namespace Dataflow.Engine

structure Bookkept (e : Engine) : Prop where
  live_ascend : e.liveTransforms.Pairwise fun t u => t.id.number < u.id.number
  live_iff : ∀ id t, e.transform id = .ok t ↔ t ∈ e.liveTransforms ∧ t.id = id
  pending_eq : ∀ t ∈ e.liveTransforms, t.pending = t.rule.inputs.countP e.isUnset
  stage_eq : ∀ t ∈ e.liveTransforms, t.stage = if t.pending = 0 then .ready else .waiting
  named : ∀ t ∈ e.liveTransforms, ∀ id ∈ t.rule.inputs ++ t.rule.outputs, ∃ d, e.datum id = .ok d
  waiters_unset : ∀ id d, e.datum id = .ok d → d.isSet = false → d.waiters = e.waitersOf id
  waiters_set : ∀ id d, e.datum id = .ok d → d.isSet = true → d.waiters = []
  waiters_ascend : ∀ id d, e.datum id = .ok d →
    d.waiters.Pairwise fun a b => a.number ≤ b.number
  /-- Whoever is told that an input is set is a live transform that waits for it. -/
  told_live : ∀ id d value, e.datum id = .ok d → d.isSet = false →
    (e.setDatum id value).2 = d.waiters.foldl notify (e.filled id d value) ∧
      ∀ before w after, d.waiters = before ++ w :: after →
        ∃ t, (before.foldl notify (e.filled id d value)).transform w = .ok t ∧ 0 < t.pending
  uses_eq : ∀ id d, e.datum id = .ok d → d.uses = e.usesOf id
  release_ok_iff : ∀ id, (e.releaseDatum id).1 = .ok () ↔
    (∃ d, e.datum id = .ok d) ∧ ∀ t ∈ e.liveTransforms, id ∉ t.rule.inputs ∧ id ∉ t.rule.outputs
  /-- When a transform leaves, each use that is taken back has been counted. -/
  unused_counted : ∀ id t, e.transform id = .ok t → t.stage ≠ .waiting →
    (e.complete id).2.datums =
        ((t.rule.inputs ++ t.rule.outputs).foldl unuse (e.left id)).datums ∧
      ∀ before x after, t.rule.inputs ++ t.rule.outputs = before ++ x :: after →
        ∃ d, (before.foldl unuse (e.left id)).datum x = .ok d ∧ 0 < d.uses

namespace Consistent

variable {e : Engine} (hc : e.Consistent)

include hc

theorem waitersOf_ascend (id : DatumId) :
    (e.waitersOf id).Pairwise fun a b => a.number ≤ b.number := by
  refine List.pairwise_flatMap.mpr ⟨fun t _ => ?_, hc.live_ascend.imp fun hlt a ha b hb => ?_⟩
  · exact List.pairwise_replicate.mpr (.inr (Nat.le_refl _))
  · rw [List.eq_of_mem_replicate ha, List.eq_of_mem_replicate hb]
    exact Nat.le_of_lt hlt

/-- A transform is told of an input only while it waits for it. -/
theorem told_waiting {id : DatumId} {d : Datum} (hget : e.datums.get? id = some d)
    (hd : d.isSet = false) (value : Bytes) {before after : List TransformId} {w : TransformId}
    (hsplit : d.waiters = before ++ w :: after) :
    ∃ t, (before.foldl notify (e.filled id d value)).transforms.get? w = some t ∧
      0 < t.pending := by
  have hwaiters := hc.waiters_unset hget hd
  have hmem : w ∈ e.waitersOf id := by
    rw [← hwaiters, hsplit]
    exact List.mem_append_right _ List.mem_cons_self
  obtain ⟨t, ht, hrep⟩ := List.mem_flatMap.mp hmem
  have hwt := List.eq_of_mem_replicate hrep
  have hcount : before.count w + 1 ≤ t.rule.inputs.count id := by
    rw [← hc.count_waitersOf ht id, ← hwaiters, hsplit, ← hwt, List.count_append,
      List.count_cons_self]
    omega
  have hle := hc.count_le_pending ht (isUnset_self hget hd)
  refine ⟨Transform.countDown^[before.count w] t, ?_, ?_⟩
  · rw [get?_foldl_notify]
    show (e.transforms.get? w).map _ = _
    rw [hwt, hc.get?_of_mem ht]
    rfl
  · rw [Transform.iterate_countDown (by omega)]
    show 0 < t.pending - before.count w
    omega

/-- A use that is taken back when a transform leaves has been counted. -/
theorem unused_counted {id : TransformId} {t : Transform} (hget : e.transforms.get? id = some t)
    {before after : List DatumId} {x : DatumId}
    (hsplit : t.rule.inputs ++ t.rule.outputs = before ++ x :: after) :
    ∃ d, (before.foldl unuse (e.left id)).datums.get? x = some d ∧ 0 < d.uses := by
  obtain ⟨ht, -⟩ := hc.mem_of_get? hget
  have hmem : x ∈ t.rule.inputs ++ t.rule.outputs := by
    rw [hsplit]
    exact List.mem_append_right _ List.mem_cons_self
  obtain ⟨d, hd⟩ := Option.isSome_iff_exists.mp (hc.named t ht x hmem)
  have hcount := count_le_usesOf ht x
  rw [hsplit, List.count_append, List.count_cons_self, ← hc.uses_eq x d hd] at hcount
  refine ⟨{ d with uses := d.uses - before.count x }, ?_, ?_⟩
  · rw [foldl_datums (g := unuse) (f := Datum.dropUse) fun _ _ => rfl]
    show (List.foldl _ e.datums _).get? x = _
    rw [SortedMap.get?_foldl_modify, hd, Option.map_some, Datum.iterate_dropUse]
  · show 0 < d.uses - before.count x
    omega

theorem release_ok_iff (id : DatumId) :
    (e.releaseDatum id).1 = .ok () ↔
      (∃ d, e.datum id = .ok d) ∧
        ∀ t ∈ e.liveTransforms, id ∉ t.rule.inputs ∧ id ∉ t.rule.outputs := by
  rw [releaseDatum]
  cases hd : e.datum id with
  | error err => simp
  | ok d =>
    have huses := hc.uses_eq id d (datum_eq_ok_iff.mp hd)
    have hunused : d.uses = 0 ↔
        ∀ t ∈ e.liveTransforms, id ∉ t.rule.inputs ∧ id ∉ t.rule.outputs := by
      rw [huses, usesOf_eq_zero_iff]
      simp only [List.mem_append, not_or]
    rw [← hunused]
    by_cases hzero : d.uses = 0
    · simp [hzero]
    · have hpos : 0 < d.uses := by omega
      simp [hpos, hzero]

theorem bookkept : e.Bookkept where
  live_ascend := hc.live_ascend
  live_iff id t := by
    rw [transform_eq_ok_iff]
    constructor
    · exact hc.mem_of_get?
    · rintro ⟨ht, rfl⟩
      exact hc.get?_of_mem ht
  pending_eq := hc.pending_eq
  stage_eq := hc.stage_eq
  named t ht id hid := by
    obtain ⟨d, hd⟩ := Option.isSome_iff_exists.mp (hc.named t ht id hid)
    exact ⟨d, datum_eq_ok_iff.mpr hd⟩
  waiters_unset id d hget hd := hc.waiters_unset (datum_eq_ok_iff.mp hget) hd
  waiters_set id d hget hd := by
    rw [hc.waiters_eq id d (datum_eq_ok_iff.mp hget), if_pos hd]
  waiters_ascend id d hget := by
    rw [hc.waiters_eq id d (datum_eq_ok_iff.mp hget)]
    split
    · exact List.Pairwise.nil
    · exact hc.waitersOf_ascend id
  told_live id d value hget hd := by
    have hget' := datum_eq_ok_iff.mp hget
    refine ⟨by rw [setDatum_unset hget' hd], fun before w after hsplit => ?_⟩
    obtain ⟨t, ht, hpos⟩ := hc.told_waiting hget' hd value hsplit
    exact ⟨t, transform_eq_ok_iff.mpr ht, hpos⟩
  uses_eq id d hget := hc.uses_eq id d (datum_eq_ok_iff.mp hget)
  release_ok_iff := hc.release_ok_iff
  unused_counted id t hget hstage := by
    have hget' := transform_eq_ok_iff.mp hget
    refine ⟨?_, fun before x after hsplit => ?_⟩
    · rw [complete_eq hget' hstage, foldl_datums (g := unuse) (f := Datum.dropUse) fun _ _ => rfl]
      rfl
    · obtain ⟨d, hd, hpos⟩ := hc.unused_counted hget' hsplit
      exact ⟨d, datum_eq_ok_iff.mpr hd, hpos⟩

end Consistent

/-- Whatever callers ask of a new engine, its bookkeeping is right, also between the steps of a
call. -/
theorem run_bookkept (calls : List Call) :
    (empty.run calls).Bookkept ∧ ∀ e ∈ empty.moments (empty.movesOf calls), e.Bookkept :=
  ⟨(consistent_empty.run calls).bookkept,
    fun e he => (consistent_empty.moments _ e he).bookkept⟩

end Dataflow.Engine

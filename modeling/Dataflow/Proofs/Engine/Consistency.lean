import Dataflow.Proofs.Engine.Calls
import Dataflow.Proofs.Engine.Effects

/-!
# Consistent engines

What transforms and datums count and list of each other agrees, and every small step keeps it so.

* `Engine.Consistent`: the agreement.
* `Engine.Consistent.live_setDatum`, `live_complete`, `live_enrolled`: what becomes of the live
  transforms.
* `Engine.Consistent.ready_setDatum`, `ready_enrolled`: what joins the queue.
* `Engine.Consistent.move`: small steps keep engines consistent.
* `Engine.Consistent.after`, `Engine.Consistent.moments`: so do histories of small steps.
-/

namespace Dataflow.Engine

open Std

/-- The live transforms that read a datum, in the order of their registration, each of them once for
each of its inputs that is the datum. -/
def waitersOf (e : Engine) (id : DatumId) : List TransformId :=
  e.liveTransforms.flatMap fun t => List.replicate (t.rule.inputs.count id) t.id

/-- How many inputs and outputs of live transforms are the datum. -/
def usesOf (e : Engine) (id : DatumId) : Nat :=
  (e.liveTransforms.flatMap fun t => t.rule.inputs ++ t.rule.outputs).count id

theorem usesOf_eq_zero_iff {e : Engine} {id : DatumId} :
    e.usesOf id = 0 ↔ ∀ t ∈ e.liveTransforms, id ∉ t.rule.inputs ++ t.rule.outputs := by
  rw [usesOf, List.count_eq_zero, List.mem_flatMap]
  exact ⟨fun h t ht hid => h ⟨t, ht, hid⟩, fun h ⟨t, ht, hid⟩ => h t ht hid⟩

theorem count_le_usesOf {e : Engine} {t : Transform} (ht : t ∈ e.liveTransforms) (id : DatumId) :
    (t.rule.inputs ++ t.rule.outputs).count id ≤ e.usesOf id := by
  obtain ⟨before, after, hlive⟩ := List.append_of_mem ht
  simp only [usesOf, hlive, List.flatMap_append, List.flatMap_cons, List.count_append]
  omega

structure Consistent (e : Engine) : Prop where
  datums_sorted : e.datums.Sorted
  datums_issued : ∀ id d, e.datums.get? id = some d → id.number ≤ e.datumIds.issued
  transforms_sorted : e.transforms.Sorted
  transforms_issued : ∀ p ∈ e.transforms.entries, p.1.number ≤ e.transformIds.issued
  transform_id : ∀ p ∈ e.transforms.entries, p.2.id = p.1
  outputs_nodup : ∀ t ∈ e.liveTransforms, t.rule.outputs.Nodup
  named : ∀ t ∈ e.liveTransforms, ∀ id ∈ t.rule.inputs ++ t.rule.outputs, (e.datums.get? id).isSome
  pending_eq : ∀ t ∈ e.liveTransforms, t.pending = t.rule.inputs.countP e.isUnset
  stage_eq : ∀ t ∈ e.liveTransforms, t.stage = if t.pending = 0 then .ready else .waiting
  waiters_eq : ∀ id d, e.datums.get? id = some d →
    d.waiters = if d.isSet then [] else e.waitersOf id
  uses_eq : ∀ id d, e.datums.get? id = some d → d.uses = e.usesOf id
  ready_nodup : e.ready.ids.Nodup
  ready_live : ∀ id ∈ e.ready.ids, ∃ t ∈ e.liveTransforms, t.id = id ∧ t.pending = 0

theorem consistent_empty : Consistent empty := by
  constructor
  case datums_sorted => exact SortedMap.sorted_empty
  case transforms_sorted => exact SortedMap.sorted_empty
  case ready_nodup => exact List.nodup_nil
  all_goals simp [empty, liveTransforms, SortedMap.values, SortedMap.get?, SortedMap.find?]

/-! ## Live transforms -/

namespace Consistent

variable {e : Engine} (hc : e.Consistent)

include hc

theorem ids_live : e.liveTransforms.map (·.id) = e.transforms.keys := by
  rw [liveTransforms, SortedMap.values, List.map_map, SortedMap.keys]
  exact List.map_congr_left fun p hp => hc.transform_id p hp

theorem nodup_ids : (e.liveTransforms.map (·.id)).Nodup := by
  rw [hc.ids_live]
  exact SortedMap.nodup_keys hc.transforms_sorted

theorem eq_of_id {t u : Transform} (ht : t ∈ e.liveTransforms) (hu : u ∈ e.liveTransforms)
    (h : t.id = u.id) : t = u :=
  List.inj_on_of_nodup_map hc.nodup_ids ht hu h

theorem live_ascend : e.liveTransforms.Pairwise fun t u => t.id.number < u.id.number := by
  have hkeys : (e.liveTransforms.map (·.id)).Pairwise fun a b => a.number < b.number := by
    rw [hc.ids_live]
    exact List.pairwise_map.mpr (hc.transforms_sorted.imp fun h => Nat.compare_eq_lt.mp h)
  rw [List.pairwise_map] at hkeys
  exact hkeys

theorem get?_of_mem {t : Transform} (ht : t ∈ e.liveTransforms) :
    e.transforms.get? t.id = some t := by
  obtain ⟨p, hp, rfl⟩ := List.mem_map.mp ht
  rw [hc.transform_id p hp]
  exact (SortedMap.get?_eq_some_iff hc.transforms_sorted).mpr hp

theorem mem_of_get? {id : TransformId} {t : Transform} (h : e.transforms.get? id = some t) :
    t ∈ e.liveTransforms ∧ t.id = id := by
  have hp := (SortedMap.get?_eq_some_iff hc.transforms_sorted).mp h
  exact ⟨List.mem_map_of_mem hp, hc.transform_id _ hp⟩

theorem live_issued {t : Transform} (ht : t ∈ e.liveTransforms) :
    t.id.number ≤ e.transformIds.issued := by
  obtain ⟨p, hp, rfl⟩ := List.mem_map.mp ht
  rw [hc.transform_id p hp]
  exact hc.transforms_issued p hp

/-- A live transform is listed once for each of its inputs. -/
theorem count_waitersOf {t : Transform} (ht : t ∈ e.liveTransforms) (id : DatumId) :
    (e.waitersOf id).count t.id = t.rule.inputs.count id := by
  obtain ⟨before, after, hlive⟩ := List.append_of_mem ht
  have hnodup := hc.nodup_ids
  rw [hlive, List.map_append, List.map_cons] at hnodup
  obtain ⟨-, hafter, hbefore⟩ := List.nodup_append.mp hnodup
  have hnone : ∀ ts : List Transform, t.id ∉ ts.map (·.id) →
      (ts.flatMap fun u => List.replicate (u.rule.inputs.count id) u.id).count t.id = 0 := by
    intro ts hts
    refine List.count_eq_zero_of_not_mem fun hmem => hts ?_
    obtain ⟨u, hu, hrep⟩ := List.mem_flatMap.mp hmem
    rw [List.eq_of_mem_replicate hrep]
    exact List.mem_map_of_mem hu
  rw [waitersOf, hlive, List.flatMap_append, List.flatMap_cons, List.count_append,
    List.count_append, List.count_replicate_self, hnone before, hnone after]
  · omega
  · exact (List.nodup_cons.mp hafter).1
  · exact fun hmem => hbefore _ hmem _ List.mem_cons_self rfl

theorem waiters_unset {id : DatumId} {d : Datum} (hget : e.datums.get? id = some d)
    (hd : d.isSet = false) : d.waiters = e.waitersOf id := by
  have hwaiters := hc.waiters_eq id d hget
  rwa [hd, if_neg Bool.false_ne_true] at hwaiters

theorem count_le_pending {t : Transform} (ht : t ∈ e.liveTransforms) {id : DatumId}
    (hid : e.isUnset id = true) : t.rule.inputs.count id ≤ t.pending := by
  rw [hc.pending_eq t ht, List.count]
  exact List.countP_mono_left fun x _ hx => by rwa [beq_iff_eq.mp hx]

theorem pending_of_get? {id : TransformId} {t : Transform} (h : e.transforms.get? id = some t)
    (hstage : t.stage ≠ .waiting) : t.pending = 0 := by
  have heq := hc.stage_eq t (hc.mem_of_get? h).1
  by_contra hne
  rw [if_neg hne] at heq
  exact hstage heq

theorem pending_of_ready {t : Transform} (ht : t ∈ e.liveTransforms) (hmem : t.id ∈ e.ready.ids) :
    t.pending = 0 := by
  obtain ⟨u, hu, hut, hzero⟩ := hc.ready_live t.id hmem
  rwa [hc.eq_of_id hu ht hut] at hzero

end Consistent

/-! ## The queue while transforms are told -/

theorem ready_notify {e : Engine} {id : TransformId} {t : Transform}
    (hget : e.transforms.get? id = some t) :
    (e.notify id).ready = if t.pending = 1 then (e.ready.push id).2 else e.ready := by
  rw [notify, hget]
  by_cases hone : t.pending = 1
  · simp [Transform.becomesReady, hone]
  · simp [Transform.becomesReady, hone]

theorem get?_foldl_notify (ids : List TransformId) (e : Engine) (id : TransformId) :
    (ids.foldl notify e).transforms.get? id =
      (e.transforms.get? id).map Transform.countDown^[ids.count id] := by
  rw [foldl_notify]
  exact SortedMap.get?_foldl_modify _ _ _ _

/-- A transform that is told of several inputs joins the queue if they are all that it waits for. -/
theorem ready_replicate {e : Engine} {id : TransformId} {t : Transform} {n : Nat}
    (hget : e.transforms.get? id = some t) (hn : n ≤ t.pending)
    (hqueue : 0 < n → id ∉ e.ready.ids) :
    ((List.replicate n id).foldl notify e).ready.ids =
      e.ready.ids ++ if 0 < n ∧ t.pending = n then [id] else [] := by
  induction n with
  | zero => simp
  | succ n ih =>
    -- Before the last of them the transform still waits, so the queue is what it was.
    have hsame : ((List.replicate n id).foldl notify e).ready.ids = e.ready.ids := by
      rw [ih (by omega) (fun _ => hqueue (by omega)), if_neg (by omega), List.append_nil]
    have hget' := get?_foldl_notify (List.replicate n id) e id
    rw [hget, List.count_replicate_self, Option.map_some,
      Transform.iterate_countDown (by omega)] at hget'
    rw [List.replicate_succ', List.foldl_append, List.foldl_cons, List.foldl_nil,
      ready_notify hget']
    by_cases hlast : t.pending = n + 1
    · have hone : t.pending - n = 1 := by omega
      have hnew : id ∉ ((List.replicate n id).foldl notify e).ready.ids := by
        rw [hsame]
        exact hqueue (by omega)
      rw [if_pos hone, if_pos ⟨by omega, hlast⟩, DispatchQueue.push, if_neg, hsame]
      simpa [DispatchQueue.contains] using hnew
    · have hone : ¬t.pending - n = 1 := by omega
      rw [if_neg hone, if_neg (fun h => hlast h.2), hsame, List.append_nil]

/-- Transforms that are told one after another, each of several inputs, join the queue in this
order. -/
theorem ready_foldl_notify {count : Transform → Nat} {ts : List Transform} {e : Engine}
    (hnodup : (ts.map (·.id)).Nodup) (hget : ∀ t ∈ ts, e.transforms.get? t.id = some t)
    (hcount : ∀ t ∈ ts, count t ≤ t.pending)
    (hqueue : ∀ t ∈ ts, 0 < count t → t.id ∉ e.ready.ids) :
    ((ts.flatMap fun t => List.replicate (count t) t.id).foldl notify e).ready.ids =
      e.ready.ids ++ (ts.filter fun t => 0 < count t ∧ t.pending = count t).map (·.id) := by
  induction ts generalizing e with
  | nil => simp
  | cons t ts ih =>
    obtain ⟨hget₀, hget⟩ := List.forall_mem_cons.mp hget
    obtain ⟨hcount₀, hcount⟩ := List.forall_mem_cons.mp hcount
    obtain ⟨hqueue₀, hqueue⟩ := List.forall_mem_cons.mp hqueue
    obtain ⟨hnew, hnodup⟩ := List.nodup_cons.mp hnodup
    have hne : ∀ u ∈ ts, u.id ≠ t.id := by
      intro u hu heq
      exact hnew (List.mem_map.mpr ⟨u, hu, heq⟩)
    have hhead := ready_replicate hget₀ hcount₀ hqueue₀
    rw [List.flatMap_cons, List.foldl_append, ih hnodup ?_ hcount ?_, hhead, List.append_assoc]
    · by_cases hlast : 0 < count t ∧ t.pending = count t
      · rw [if_pos hlast, List.filter_cons_of_pos (by simpa using hlast), List.map_cons,
          List.singleton_append]
      · rw [if_neg hlast, List.filter_cons_of_neg (by simpa using hlast), List.nil_append]
    · intro u hu
      have hzero : (List.replicate (count t) t.id).count u.id = 0 :=
        List.count_eq_zero_of_not_mem fun hmem => hne u hu (List.eq_of_mem_replicate hmem)
      rw [get?_foldl_notify, hget u hu, hzero]
      rfl
    · intro u hu hpos hmem
      rw [hhead] at hmem
      rcases List.mem_append.mp hmem with hold | hnow
      · exact hqueue u hu hpos hold
      · split at hnow
        · exact hne u hu (List.mem_singleton.mp hnow)
        · cases hnow

/-! ## Setting a datum -/

section

variable {e : Engine} {id : DatumId} {d : Datum} (hget : e.datums.get? id = some d)
  (hd : d.isSet = false) (value : Bytes)

include hget hd

theorem Consistent.entries_setDatum (hc : e.Consistent) :
    (e.setDatum id value).2.transforms.entries =
      e.transforms.entries.map fun p => (p.1, p.2.told id) := by
  rw [setDatum_eq hget hd]
  show (List.foldl _ e.transforms _).entries = _
  rw [SortedMap.entries_foldl_modify]
  refine List.map_congr_left fun p hp => ?_
  have ht : p.2 ∈ e.liveTransforms := List.mem_map_of_mem hp
  have hle := hc.count_le_pending ht (isUnset_self hget hd)
  rw [hc.waiters_unset hget hd, ← hc.transform_id p hp, hc.count_waitersOf ht,
    Transform.iterate_countDown_count hle (hc.stage_eq p.2 ht)]

theorem Consistent.live_setDatum (hc : e.Consistent) :
    (e.setDatum id value).2.liveTransforms = e.liveTransforms.map (Transform.told id) := by
  rw [liveTransforms, SortedMap.values, hc.entries_setDatum hget hd, List.map_map, liveTransforms,
    SortedMap.values, List.map_map]
  rfl

/-- The transforms that waited for nothing but the datum join the queue, in the order of their
registration. -/
theorem Consistent.ready_setDatum (hc : e.Consistent) :
    (e.setDatum id value).2.ready.ids =
      e.ready.ids ++ (e.liveTransforms.filter fun t =>
        0 < t.rule.inputs.count id ∧ t.pending = t.rule.inputs.count id).map (·.id) := by
  rw [setDatum_unset hget hd, hc.waiters_unset hget hd, waitersOf]
  refine ready_foldl_notify hc.nodup_ids (fun t ht => hc.get?_of_mem ht)
    (fun t ht => hc.count_le_pending ht (isUnset_self hget hd)) ?_
  intro t ht hpos hmem
  have hle := hc.count_le_pending ht (isUnset_self hget hd)
  have hzero := hc.pending_of_ready ht hmem
  omega

theorem Consistent.waitersOf_setDatum (hc : e.Consistent) (x : DatumId) :
    (e.setDatum id value).2.waitersOf x = e.waitersOf x := by
  rw [waitersOf, hc.live_setDatum hget hd, List.flatMap_map]
  rfl

theorem Consistent.usesOf_setDatum (hc : e.Consistent) (x : DatumId) :
    (e.setDatum id value).2.usesOf x = e.usesOf x := by
  rw [usesOf, hc.live_setDatum hget hd, List.flatMap_map]
  rfl

end

namespace Consistent

variable {e : Engine} (hc : e.Consistent)

include hc

theorem set (id : DatumId) (value : Bytes) : (e.setDatum id value).2.Consistent := by
  rcases setDatum_cases e id value with hsame | ⟨d, hget, hd⟩
  · rwa [hsame]
  have hlive := hc.live_setDatum hget hd value
  have hentries := hc.entries_setDatum hget hd value
  constructor
  case datums_sorted =>
    rw [setDatum_eq hget hd]
    exact SortedMap.sorted_modify hc.datums_sorted _ _
  case datums_issued =>
    intro x d' hx
    rw [get?_setDatum hget hd] at hx
    rw [setDatum_eq hget hd]
    split at hx
    · rename_i hxid
      exact hc.datums_issued x d (hxid ▸ hget)
    · exact hc.datums_issued x d' hx
  case transforms_sorted =>
    rw [setDatum_eq hget hd]
    exact SortedMap.sorted_foldl_modify hc.transforms_sorted _ _
  case transforms_issued =>
    rw [hentries, setDatum_eq hget hd]
    exact List.forall_mem_map.mpr hc.transforms_issued
  case transform_id =>
    rw [hentries]
    exact List.forall_mem_map.mpr hc.transform_id
  case outputs_nodup =>
    rw [hlive]
    exact List.forall_mem_map.mpr hc.outputs_nodup
  case named =>
    rw [hlive]
    refine List.forall_mem_map.mpr fun t ht x hx => ?_
    rw [get?_setDatum hget hd]
    split
    · rfl
    · exact hc.named t ht x hx
  case pending_eq =>
    rw [hlive]
    refine List.forall_mem_map.mpr fun t ht => ?_
    rw [countP_isUnset_setDatum hget hd]
    show t.pending - t.rule.inputs.count id = _
    rw [hc.pending_eq t ht]
    rfl
  case stage_eq =>
    rw [hlive]
    refine List.forall_mem_map.mpr fun t ht => ?_
    have hle := hc.count_le_pending ht (isUnset_self hget hd)
    show (if t.pending = t.rule.inputs.count id then _ else _) =
      if t.pending - t.rule.inputs.count id = 0 then _ else _
    by_cases hall : t.pending = t.rule.inputs.count id
    · rw [if_pos hall, if_pos (by omega)]
    · rw [if_neg hall, if_neg (by omega)]
  case waiters_eq =>
    intro x d' hx
    rw [get?_setDatum hget hd] at hx
    rw [hc.waitersOf_setDatum hget hd]
    split at hx
    · cases hx
      rfl
    · exact hc.waiters_eq x d' hx
  case uses_eq =>
    intro x d' hx
    rw [get?_setDatum hget hd] at hx
    rw [hc.usesOf_setDatum hget hd]
    split at hx
    · rename_i hxid
      cases hx
      exact hc.uses_eq x d (hxid ▸ hget)
    · exact hc.uses_eq x d' hx
  case ready_nodup =>
    rw [hc.ready_setDatum hget hd]
    refine List.nodup_append.mpr ⟨hc.ready_nodup, ?_, ?_⟩
    · exact hc.nodup_ids.sublist (List.filter_sublist.map _)
    · rintro a ha b hb rfl
      obtain ⟨t, ht, rfl⟩ := List.mem_map.mp hb
      obtain ⟨ht, hall⟩ := List.mem_filter.mp ht
      have hcount := of_decide_eq_true hall
      have hzero := hc.pending_of_ready ht ha
      omega
  case ready_live =>
    rw [hc.ready_setDatum hget hd, hlive]
    intro x hx
    rcases List.mem_append.mp hx with hold | hnew
    · obtain ⟨t, ht, rfl, hzero⟩ := hc.ready_live x hold
      refine ⟨t.told id, List.mem_map_of_mem ht, rfl, ?_⟩
      show t.pending - _ = 0
      omega
    · obtain ⟨t, ht, rfl⟩ := List.mem_map.mp hnew
      obtain ⟨ht, hall⟩ := List.mem_filter.mp ht
      have hcount := of_decide_eq_true hall
      refine ⟨t.told id, List.mem_map_of_mem ht, rfl, ?_⟩
      show t.pending - _ = 0
      omega

/-- A datum that no live transform names may come or go. -/
theorem of_datums {datums : SortedMap DatumId Datum} {datumIds : Numbering}
    (id : DatumId) (hsorted : datums.Sorted)
    (hissued : ∀ x d, datums.get? x = some d → x.number ≤ datumIds.issued)
    (hget : ∀ x, x ≠ id → datums.get? x = e.datums.get? x)
    (hnamed : ∀ t ∈ e.liveTransforms, id ∉ t.rule.inputs ++ t.rule.outputs)
    (hid : ∀ d, datums.get? id = some d → d.waiters = [] ∧ d.uses = 0) :
    Consistent { e with datums := datums, datumIds := datumIds } := by
  have hsame : ∀ t ∈ e.liveTransforms, ∀ x ∈ t.rule.inputs ++ t.rule.outputs,
      datums.get? x = e.datums.get? x := by
    intro t ht x hx
    refine hget x ?_
    rintro rfl
    exact hnamed t ht hx
  have hwaiters : e.waitersOf id = [] := by
    refine List.flatMap_eq_nil_iff.mpr fun t ht => ?_
    rw [List.count_eq_zero_of_not_mem fun hmem => hnamed t ht (List.mem_append_left _ hmem)]
    rfl
  have huses : e.usesOf id = 0 := usesOf_eq_zero_iff.mpr hnamed
  refine { hc with
    datums_sorted := hsorted
    datums_issued := hissued
    named := ?_
    pending_eq := ?_
    waiters_eq := ?_
    uses_eq := ?_ }
  · intro t ht x hx
    rw [hsame t ht x hx]
    exact hc.named t ht x hx
  · intro t ht
    rw [hc.pending_eq t ht]
    refine List.countP_congr fun x hx => ?_
    rw [isUnset_eq, isUnset_eq, hsame t ht x (List.mem_append_left _ hx)]
  · intro x d hx
    show d.waiters = if d.isSet then [] else e.waitersOf x
    by_cases hxid : x = id
    · subst hxid
      rw [hwaiters, ite_self]
      exact (hid d hx).1
    · exact hc.waiters_eq x d (hget x hxid ▸ hx)
  · intro x d hx
    show d.uses = e.usesOf x
    by_cases hxid : x = id
    · subst hxid
      rw [huses]
      exact (hid d hx).2
    · exact hc.uses_eq x d (hget x hxid ▸ hx)

theorem release (id : DatumId) : (e.releaseDatum id).2.Consistent := by
  rcases releaseDatum_cases e id with hsame | ⟨d, hget, hzero, heq⟩
  · rwa [hsame]
  rw [heq]
  have hget' : ∀ x, (e.datums.erase id).get? x = if x = id then none else e.datums.get? x := by
    intro x
    simp only [SortedMap.get?_erase, LawfulEqCmp.compare_eq_iff_eq]
  have hunused : e.usesOf id = 0 := (hc.uses_eq id d hget).symm.trans hzero
  refine hc.of_datums id (SortedMap.sorted_erase hc.datums_sorted id) ?_ ?_
    (usesOf_eq_zero_iff.mp hunused) ?_
  · intro x d' hx
    rw [hget'] at hx
    split at hx
    · cases hx
    · exact hc.datums_issued x d' hx
  · intro x hx
    rw [hget', if_neg hx]
  · intro d' hx
    rw [hget', if_pos rfl] at hx
    cases hx

theorem place (backing : Backing) (value : Option Bytes) :
    (e.placeDatum backing value).2.Consistent := by
  have hget : ∀ x d, (e.datums.insert ⟨e.datumIds.issued + 1⟩ d).get? x =
      if x = ⟨e.datumIds.issued + 1⟩ then some d else e.datums.get? x := by
    intro x d
    simp only [SortedMap.get?_insert, LawfulEqCmp.compare_eq_iff_eq]
  refine hc.of_datums ⟨e.datumIds.issued + 1⟩ (SortedMap.sorted_insert hc.datums_sorted _ _)
    ?_ ?_ ?_ ?_
  · intro x d hx
    rw [hget] at hx
    split at hx
    · rename_i hxid
      exact Nat.le_of_eq (congrArg DatumId.number hxid)
    · exact Nat.le_succ_of_le (hc.datums_issued x d hx)
  · intro x hx
    rw [hget, if_neg hx]
  · intro t ht hmem
    obtain ⟨d, hd⟩ := Option.isSome_iff_exists.mp (hc.named t ht _ hmem)
    have hle := hc.datums_issued _ d hd
    exact Nat.not_succ_le_self _ hle
  · intro d hx
    rw [hget, if_pos rfl] at hx
    cases hx
    exact ⟨rfl, rfl⟩

theorem take (max : Nat) : (e.takeReady max).2.Consistent :=
  { hc with
    ready_nodup := hc.ready_nodup.sublist (List.drop_sublist max _)
    ready_live := fun id hid => hc.ready_live id (List.mem_of_mem_drop hid) }

/-- Completing a transform takes it out of the live ones. -/
theorem live_complete {id : TransformId} {t : Transform} (hget : e.transforms.get? id = some t)
    (hstage : t.stage ≠ .waiting) :
    ∃ before after, e.liveTransforms = before ++ t :: after ∧
      (e.complete id).2.liveTransforms = before ++ after := by
  obtain ⟨before, after, hentries, hcut⟩ := SortedMap.exists_cut hc.transforms_sorted hget
  refine ⟨before.map (·.2), after.map (·.2), ?_, ?_⟩
  · rw [liveTransforms, SortedMap.values, hentries, List.map_append, List.map_cons]
  · rw [complete_eq hget hstage]
    show (e.transforms.erase id).entries.map (·.2) = _
    rw [hcut.erase_present ReflCmp.compare_self hentries, List.map_append]

theorem mem_live_complete {id : TransformId} {t u : Transform}
    (hget : e.transforms.get? id = some t) (hstage : t.stage ≠ .waiting) :
    u ∈ (e.complete id).2.liveTransforms ↔ u ∈ e.liveTransforms ∧ u.id ≠ id := by
  have hkeep : ∀ p ∈ e.transforms.entries,
      (compare id p.1 != .eq) = true ↔ p.2.id ≠ id := by
    intro p hp
    rw [hc.transform_id p hp, bne_iff_ne, Ne, LawfulEqCmp.compare_eq_iff_eq, eq_comm]
  rw [complete_eq hget hstage]
  show u ∈ (e.transforms.entries.filter _).map _ ↔ u ∈ e.transforms.entries.map _ ∧ _
  constructor
  · intro hu
    obtain ⟨p, hp, rfl⟩ := List.mem_map.mp hu
    obtain ⟨hp, hne⟩ := List.mem_filter.mp hp
    exact ⟨List.mem_map_of_mem hp, (hkeep p hp).mp hne⟩
  · rintro ⟨hu, hne⟩
    obtain ⟨p, hp, rfl⟩ := List.mem_map.mp hu
    exact List.mem_map_of_mem (List.mem_filter.mpr ⟨hp, (hkeep p hp).mpr hne⟩)

theorem complete (id : TransformId) : (e.complete id).2.Consistent := by
  rcases complete_cases e id with ⟨hsame, -⟩ | ⟨t, hget, hstage⟩
  · rwa [hsame]
  have hzero := hc.pending_of_get? hget hstage
  obtain ⟨ht, -⟩ := hc.mem_of_get? hget
  obtain ⟨before, after, hlive, hlive'⟩ := hc.live_complete hget hstage
  have hmem := fun u => hc.mem_live_complete hget hstage (u := u)
  have hsub : ∀ u ∈ (e.complete id).2.liveTransforms, u ∈ e.liveTransforms :=
    fun u hu => ((hmem u).mp hu).1
  constructor
  case datums_sorted =>
    rw [complete_eq hget hstage]
    exact SortedMap.sorted_foldl_modify hc.datums_sorted _ _
  case datums_issued =>
    intro x d' hx
    rw [get?_complete hget hstage] at hx
    obtain ⟨d, hd, -⟩ := Option.map_eq_some_iff.mp hx
    rw [complete_eq hget hstage]
    exact hc.datums_issued x d hd
  case transforms_sorted =>
    rw [complete_eq hget hstage]
    exact SortedMap.sorted_erase hc.transforms_sorted id
  case transforms_issued =>
    rw [complete_eq hget hstage]
    exact fun p hp => hc.transforms_issued p (List.mem_of_mem_filter hp)
  case transform_id =>
    rw [complete_eq hget hstage]
    exact fun p hp => hc.transform_id p (List.mem_of_mem_filter hp)
  case outputs_nodup => exact fun u hu => hc.outputs_nodup u (hsub u hu)
  case named =>
    intro u hu x hx
    rw [get?_complete hget hstage, Option.isSome_map]
    exact hc.named u (hsub u hu) x hx
  case pending_eq =>
    intro u hu
    rw [isUnset_complete hget hstage]
    exact hc.pending_eq u (hsub u hu)
  case stage_eq => exact fun u hu => hc.stage_eq u (hsub u hu)
  case waiters_eq =>
    intro x d' hx
    rw [get?_complete hget hstage] at hx
    obtain ⟨d, hd, rfl⟩ := Option.map_eq_some_iff.mp hx
    show d.waiters = if d.isSet then [] else _
    rw [hc.waiters_eq x d hd]
    cases hset : d.isSet with
    | true => rfl
    | false =>
      -- The transform waits for nothing, so it reads no datum without a value and no list names it.
      have hle := hc.count_le_pending ht (isUnset_self hd hset)
      have hnone : t.rule.inputs.count x = 0 := by omega
      rw [waitersOf, waitersOf, hlive, hlive', List.flatMap_append, List.flatMap_append,
        List.flatMap_cons, hnone]
      rfl
  case uses_eq =>
    intro x d' hx
    rw [get?_complete hget hstage] at hx
    obtain ⟨d, hd, rfl⟩ := Option.map_eq_some_iff.mp hx
    have huses := hc.uses_eq x d hd
    simp only [usesOf, hlive, List.flatMap_append, List.flatMap_cons, List.count_append] at huses
    simp only [usesOf, hlive', List.flatMap_append, List.count_append]
    omega
  case ready_nodup =>
    rw [complete_eq hget hstage]
    exact hc.ready_nodup.erase id
  case ready_live =>
    intro x hx
    rw [complete_eq hget hstage] at hx
    obtain ⟨hne, hqueued⟩ := hc.ready_nodup.mem_erase_iff.mp hx
    obtain ⟨u, hu, rfl, hu0⟩ := hc.ready_live x hqueued
    exact ⟨u, (hmem u).mpr ⟨hu, hne⟩, rfl, hu0⟩

/-- Registering a rule adds a transform behind the others. -/
theorem entries_enrolled (rule : Rule) :
    (e.enrolled rule).transforms.entries =
      e.transforms.entries ++ [((e.newcomer rule).id, e.newcomer rule)] := by
  have hcut : SortedMap.Cut (e.newcomer rule).id e.transforms.entries [] := by
    refine ⟨fun p hp => ?_, by simp⟩
    exact Nat.compare_eq_gt.mpr (Nat.lt_succ_of_le (hc.transforms_issued p hp))
  rw [enrolled_eq]
  exact hcut.insert_vacant (List.append_nil _).symm _

theorem live_enrolled (rule : Rule) :
    (e.enrolled rule).liveTransforms = e.liveTransforms ++ [e.newcomer rule] := by
  rw [liveTransforms, SortedMap.values, hc.entries_enrolled, List.map_append]
  rfl

theorem newcomer_fresh (rule : Rule) : ∀ t ∈ e.liveTransforms, t.id ≠ (e.newcomer rule).id := by
  intro t ht heq
  have hle := hc.live_issued ht
  rw [heq] at hle
  exact Nat.not_succ_le_self _ hle

theorem newcomer_not_ready (rule : Rule) : (e.newcomer rule).id ∉ e.ready.ids := by
  intro hmem
  obtain ⟨t, ht, heq, -⟩ := hc.ready_live _ hmem
  exact hc.newcomer_fresh rule t ht heq

theorem ready_enrolled (rule : Rule) :
    (e.enrolled rule).ready.ids =
      e.ready.ids ++ if (e.newcomer rule).pending = 0 then [(e.newcomer rule).id] else [] := by
  have hnew := hc.newcomer_not_ready rule
  rw [enrolled_eq]
  by_cases hzero : (e.newcomer rule).pending = 0
  · simp [hzero, DispatchQueue.push, DispatchQueue.contains, hnew]
  · simp [hzero]

theorem add (rule : Rule) : (e.addRule rule).2.Consistent := by
  rcases addRule_cases e rule with hsame | ⟨hnodup, hexist, heq⟩
  · rwa [hsame]
  rw [heq]
  have hentries := hc.entries_enrolled rule
  have hlive := hc.live_enrolled rule
  have hready := hc.ready_enrolled rule
  constructor
  case datums_sorted =>
    rw [enrolled_eq]
    exact SortedMap.sorted_foldl_modify (SortedMap.sorted_foldl_modify hc.datums_sorted _ _) _ _
  case datums_issued =>
    intro x d' hx
    rw [get?_enrolled] at hx
    obtain ⟨d, hd, -⟩ := Option.map_eq_some_iff.mp hx
    rw [enrolled_eq]
    exact hc.datums_issued x d hd
  case transforms_sorted =>
    rw [enrolled_eq]
    exact SortedMap.sorted_insert hc.transforms_sorted _ _
  case transforms_issued =>
    rw [hentries, enrolled_eq]
    refine List.forall_mem_append.mpr ⟨fun p hp => ?_, ?_⟩
    · exact Nat.le_succ_of_le (hc.transforms_issued p hp)
    · exact List.forall_mem_singleton.mpr (Nat.le_refl _)
  case transform_id =>
    rw [hentries]
    exact List.forall_mem_append.mpr ⟨hc.transform_id, List.forall_mem_singleton.mpr rfl⟩
  case outputs_nodup =>
    rw [hlive]
    exact List.forall_mem_append.mpr ⟨hc.outputs_nodup, List.forall_mem_singleton.mpr hnodup⟩
  case named =>
    rw [hlive]
    have hsome : ∀ x, ((e.enrolled rule).datums.get? x).isSome = (e.datums.get? x).isSome := by
      intro x
      rw [get?_enrolled, Option.isSome_map]
    simp only [hsome]
    exact List.forall_mem_append.mpr ⟨hc.named, List.forall_mem_singleton.mpr hexist⟩
  case pending_eq =>
    rw [hlive, isUnset_enrolled]
    exact List.forall_mem_append.mpr ⟨hc.pending_eq, List.forall_mem_singleton.mpr rfl⟩
  case stage_eq =>
    rw [hlive]
    exact List.forall_mem_append.mpr ⟨hc.stage_eq, List.forall_mem_singleton.mpr rfl⟩
  case waiters_eq =>
    intro x d' hx
    rw [get?_enrolled] at hx
    obtain ⟨d, hd, rfl⟩ := Option.map_eq_some_iff.mp hx
    have hwaiters := hc.waiters_eq x d hd
    have hmore : (e.enrolled rule).waitersOf x =
        e.waitersOf x ++ List.replicate (rule.inputs.count x) (e.newcomer rule).id := by
      rw [waitersOf, hlive, List.flatMap_append, List.flatMap_singleton]
      rfl
    show (if d.isSet then d.waiters else _) = if d.isSet then [] else _
    rw [hmore, hwaiters]
    cases d.isSet <;> rfl
  case uses_eq =>
    intro x d' hx
    rw [get?_enrolled] at hx
    obtain ⟨d, hd, rfl⟩ := Option.map_eq_some_iff.mp hx
    have hmore : (e.enrolled rule).usesOf x =
        e.usesOf x + (rule.inputs ++ rule.outputs).count x := by
      rw [usesOf, hlive, List.flatMap_append, List.flatMap_singleton, List.count_append]
      rfl
    show d.uses + _ + _ = _
    rw [hmore, hc.uses_eq x d hd, List.count_append, Nat.add_assoc]
  case ready_nodup =>
    rw [hready]
    by_cases hzero : (e.newcomer rule).pending = 0
    · rw [if_pos hzero, ← List.concat_eq_append]
      exact hc.ready_nodup.concat (hc.newcomer_not_ready rule)
    · rw [if_neg hzero, List.append_nil]
      exact hc.ready_nodup
  case ready_live =>
    rw [hready, hlive]
    intro x hx
    rcases List.mem_append.mp hx with hold | hnew
    · obtain ⟨t, ht, htx, hzero⟩ := hc.ready_live x hold
      exact ⟨t, List.mem_append_left _ ht, htx, hzero⟩
    · by_cases hzero : (e.newcomer rule).pending = 0
      · rw [if_pos hzero, List.mem_singleton] at hnew
        exact ⟨_, List.mem_append_right _ (List.mem_singleton_self _), hnew.symm, hzero⟩
      · rw [if_neg hzero] at hnew
        cases hnew

theorem move (m : Move) : (e.move m).Consistent := by
  cases m with
  | place backing value => exact hc.place backing value
  | set id value => exact hc.set id value
  | release id => exact hc.release id
  | add rule => exact hc.add rule
  | take max => exact hc.take max
  | complete id => exact hc.complete id

theorem after (moves : List Move) : (e.after moves).Consistent := by
  induction moves generalizing e with
  | nil => exact hc
  | cons m moves ih => exact ih (hc.move m)

theorem moments (moves : List Move) : ∀ e' ∈ e.moments moves, e'.Consistent := by
  induction moves generalizing e with
  | nil => exact List.forall_mem_singleton.mpr hc
  | cons m moves ih => exact List.forall_mem_cons.mpr ⟨hc, ih (hc.move m)⟩

end Consistent

end Dataflow.Engine

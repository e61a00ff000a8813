import Mathlib.Data.List.Nodup
import Mathlib.Logic.Function.Iterate
import Dataflow.SortedMap

/-!
# Facts about sorted maps

What the operations of a map do to a look-up, and what they do to the list of entries when the list
is cut where a key belongs.

* `SortedMap.get?_insert`, `get?_modify`, `get?_erase`: look-ups after a change.
* `SortedMap.sorted_insert`: insertions keep the order.
* `SortedMap.nodup_keys`, `get?_eq_some_iff`, `get?_eq_none_iff`: a look-up finds the only entry of
  its key; so a map is what its look-ups are, `SortedMap.ext_get?`.
* `SortedMap.entries_foldl_modify`, `get?_foldl_modify`: the values of several keys are changed.
* `SortedMap.Cut`: a list is cut at a key; `SortedMap.exists_cut`: a map is cut at each of its keys.
* `Cut.find?_present`, `Cut.insert_vacant`, `Cut.insert_present`, `Cut.modify_present`,
  `Cut.erase_present`: what the operations do at a cut.
-/

namespace Dataflow.SortedMap

open Std

variable {K V : Type} [Ord K]

/-! ## Look-ups after a change -/

section

variable [TransOrd K]

theorem get?_insert (m : SortedMap K V) (k : K) (v : V) (k' : K) :
    (m.insert k v).get? k' = if compare k' k = .eq then some v else m.get? k' := by
  obtain ⟨entries⟩ := m
  simp only [get?, find?, insert]
  induction entries with
  | nil =>
    simp only [insertEntry, List.find?_cons, List.find?_nil]
    cases hk : compare k' k <;> simp
  | cons e rest ih =>
    unfold insertEntry
    split
    · simp only [List.find?_cons]
      cases hk : compare k' k <;> simp
    · rename_i he
      have hk : compare k' e.1 = compare k' k := (TransCmp.congr_right he).symm
      simp only [List.find?_cons, hk]
      cases hk' : compare k' k <;> simp
    · rename_i he
      simp only [List.find?_cons]
      cases hk : compare k' e.1 with
      | eq =>
        have hne : compare k' k ≠ .eq := by
          intro h
          rw [TransCmp.congr_left h, he] at hk
          cases hk
        simp [hne]
      | lt => simpa using ih
      | gt => simpa using ih

theorem get?_modify (m : SortedMap K V) (k : K) (f : V → V) (k' : K) :
    (m.modify k f).get? k' = if compare k' k = .eq then (m.get? k').map f else m.get? k' := by
  obtain ⟨entries⟩ := m
  simp only [get?, find?, modify]
  induction entries with
  | nil => simp
  | cons e rest ih =>
    have hkey : (if (compare k e.1 == .eq) = true then (e.1, f e.2) else e).1 = e.1 := by
      split <;> rfl
    simp only [List.map_cons, List.find?_cons, hkey]
    cases hk : compare k' e.1 with
    | eq =>
      have hsame : (compare k e.1 == .eq) = (compare k' k == .eq) := by
        have hswap : compare k k' = (compare k' k).swap := OrientedCmp.eq_swap
        rw [TransCmp.congr_right (OrientedCmp.eq_symm hk), hswap]
        cases compare k' k <;> rfl
      rw [hsame]
      cases hkk : compare k' k <;> simp
    | lt => simpa using ih
    | gt => simpa using ih

theorem get?_erase (m : SortedMap K V) (k k' : K) :
    (m.erase k).get? k' = if compare k' k = .eq then none else m.get? k' := by
  obtain ⟨entries⟩ := m
  simp only [get?, find?, erase]
  induction entries with
  | nil => simp
  | cons e rest ih =>
    by_cases hgone : compare k e.1 = .eq
    · have hk : compare k' e.1 = compare k' k := (TransCmp.congr_right hgone).symm
      rw [List.filter_cons_of_neg (by simp [hgone]), ih]
      split
      · rfl
      · rename_i hne
        rw [List.find?_cons_of_neg (by simp [hk, hne])]
    · rw [List.filter_cons_of_pos (by simp [hgone]), List.find?_cons, List.find?_cons]
      cases hk : compare k' e.1 with
      | eq =>
        have hne : compare k' k ≠ .eq := by
          intro h
          rw [TransCmp.congr_left h] at hk
          exact hgone hk
        simp [hne]
      | lt => simpa using ih
      | gt => simpa using ih

/-! ## Order -/

omit [TransOrd K] in
/-- Only the new key and those that were there are keys after an insertion. -/
theorem forall_insertEntry {P : K → Prop} {k : K} {v : V} {entries : List (K × V)}
    (hentries : ∀ e ∈ entries, P e.1) (hk : P k) : ∀ e ∈ insertEntry k v entries, P e.1 := by
  induction entries with
  | nil =>
    intro e he
    rw [List.mem_singleton.mp he]
    exact hk
  | cons a rest ih =>
    obtain ⟨ha, hrest⟩ := List.forall_mem_cons.mp hentries
    rw [insertEntry]
    split
    · exact List.forall_mem_cons.mpr ⟨hk, hentries⟩
    · exact List.forall_mem_cons.mpr ⟨ha, hrest⟩
    · exact List.forall_mem_cons.mpr ⟨ha, ih hrest⟩

theorem sorted_insert {m : SortedMap K V} (h : m.Sorted) (k : K) (v : V) :
    (m.insert k v).Sorted := by
  obtain ⟨entries⟩ := m
  simp only [Sorted, insert] at h ⊢
  induction entries with
  | nil => exact List.pairwise_singleton _ _
  | cons a rest ih =>
    obtain ⟨ha, hrest⟩ := List.pairwise_cons.mp h
    rw [insertEntry]
    split
    · rename_i hlt
      refine List.pairwise_cons.mpr ⟨List.forall_mem_cons.mpr ⟨hlt, fun e he => ?_⟩, h⟩
      exact TransCmp.lt_trans hlt (ha e he)
    · exact List.pairwise_cons.mpr ⟨ha, hrest⟩
    · rename_i hgt
      refine List.pairwise_cons.mpr ⟨?_, ih hrest⟩
      exact forall_insertEntry (P := fun k' => compare a.1 k' = .lt) ha (OrientedCmp.lt_of_gt hgt)

end

/-! ## Members -/

theorem keys_modify (m : SortedMap K V) (k : K) (f : V → V) : (m.modify k f).keys = m.keys := by
  rw [keys, modify, List.map_map, keys]
  refine List.map_congr_left fun e _ => ?_
  simp only [Function.comp_apply]
  split <;> rfl

theorem nodup_keys [ReflOrd K] {m : SortedMap K V} (h : m.Sorted) : m.keys.Nodup := by
  refine List.pairwise_map.mpr (h.imp ?_)
  intro a b hab heq
  have hself : compare b.1 b.1 = .eq := ReflCmp.compare_self
  rw [heq, hself] at hab
  cases hab

section

variable [LawfulEqOrd K]

theorem get?_eq_none_iff {m : SortedMap K V} {k : K} : m.get? k = none ↔ k ∉ m.keys := by
  rw [get?, Option.map_eq_none_iff, find?, List.find?_eq_none, keys, List.mem_map]
  constructor
  · rintro h ⟨e, he, rfl⟩
    exact h e he (by simp)
  · intro h e he hk
    have hkey : k = e.1 := by simpa using hk
    exact h ⟨e, he, hkey.symm⟩

theorem modify_of_get?_eq_none {m : SortedMap K V} {k : K} (h : m.get? k = none) (f : V → V) :
    m.modify k f = m := by
  have hk := get?_eq_none_iff.mp h
  refine congrArg SortedMap.mk ((List.map_congr_left fun e he => ?_).trans (List.map_id' _))
  refine if_neg ?_
  intro heq
  have hkey : k = e.1 := by simpa using heq
  exact hk (hkey ▸ List.mem_map_of_mem he)

theorem get?_eq_some_iff {m : SortedMap K V} (h : m.Sorted) {k : K} {v : V} :
    m.get? k = some v ↔ (k, v) ∈ m.entries := by
  constructor
  · intro hget
    obtain ⟨e, he, rfl⟩ := Option.map_eq_some_iff.mp hget
    have hk : k = e.1 := by simpa using List.find?_some he
    rw [hk]
    exact List.mem_of_find?_eq_some he
  · intro hmem
    cases hget : m.get? k with
    | none => exact absurd (List.mem_map_of_mem hmem) (get?_eq_none_iff.mp hget)
    | some v' =>
      obtain ⟨e, he, rfl⟩ := Option.map_eq_some_iff.mp hget
      have hk : k = e.1 := by simpa using List.find?_some he
      have hsame : (k, v) = e := List.inj_on_of_nodup_map (nodup_keys h) hmem
        (List.mem_of_find?_eq_some he) hk
      rw [← hsame]

/-- A map is what its look-ups are. -/
theorem ext_get? [OrientedOrd K] {m m' : SortedMap K V} (h : m.Sorted) (h' : m'.Sorted)
    (hget : ∀ k, m.get? k = m'.get? k) : m = m' := by
  have hmem : ∀ p, p ∈ m.entries ↔ p ∈ m'.entries := fun p => by
    rw [← get?_eq_some_iff h, ← get?_eq_some_iff h', hget]
  have hperm : m.entries.Perm m'.entries :=
    (List.perm_ext_iff_of_nodup (nodup_keys h).of_map (nodup_keys h').of_map).mpr hmem
  refine congrArg SortedMap.mk (hperm.eq_of_pairwise (fun a b _ _ hab hba => ?_) h h')
  rw [OrientedCmp.gt_of_lt hab] at hba
  cases hba

end

/-! ## Changes of several keys -/

/-- Changing the values of some keys, one after another, changes each value as often as its key
occurs. -/
theorem entries_foldl_modify [LawfulEqOrd K] [DecidableEq K] (m : SortedMap K V) (ks : List K)
    (f : V → V) :
    (ks.foldl (fun m k => m.modify k f) m).entries =
      m.entries.map fun e => (e.1, f^[ks.count e.1] e.2) := by
  induction ks generalizing m with
  | nil => simp
  | cons k ks ih =>
    rw [List.foldl_cons, ih, modify, List.map_map]
    refine List.map_congr_left fun e _ => ?_
    by_cases hk : k = e.1
    · subst hk
      simp
    · simp [hk]

theorem get?_foldl_modify [TransOrd K] [LawfulEqOrd K] [DecidableEq K] (m : SortedMap K V)
    (ks : List K) (f : V → V) (k : K) :
    (ks.foldl (fun m k => m.modify k f) m).get? k = (m.get? k).map f^[ks.count k] := by
  induction ks generalizing m with
  | nil => simp
  | cons k' ks ih =>
    rw [List.foldl_cons, ih, get?_modify]
    by_cases hk : k = k'
    · subst hk
      rw [if_pos ReflCmp.compare_self, Option.map_map, List.count_cons_self,
        Function.iterate_succ]
    · rw [if_neg (fun heq => hk (LawfulEqCmp.eq_of_compare heq)),
        List.count_cons_of_ne (Ne.symm hk)]

theorem sorted_foldl_modify {m : SortedMap K V} (h : m.Sorted) (ks : List K) (f : V → V) :
    (ks.foldl (fun m k => m.modify k f) m).Sorted := by
  induction ks generalizing m with
  | nil => exact h
  | cons k ks ih => exact ih (sorted_modify h k f)

/-! ## Cuts -/

/-- The entries before a cut have smaller keys than `k`, and those behind it greater ones. -/
structure Cut (k : K) (before after : List (K × V)) : Prop where
  before : ∀ e ∈ before, compare k e.1 = .gt
  after : ∀ e ∈ after, compare k e.1 = .lt

namespace Cut

variable {m : SortedMap K V} {k : K} {before after : List (K × V)} {e : K × V}

section Vacant

variable (h : Cut k before after) (hm : m.entries = before ++ after)

include h hm

theorem compare_ne : ∀ e ∈ m.entries, compare k e.1 ≠ .eq := by
  rw [hm]
  intro e he
  rcases List.mem_append.mp he with he | he
  · simp [h.before e he]
  · simp [h.after e he]

theorem find?_vacant : m.find? k = none := by
  rw [find?, List.find?_eq_none]
  intro e he
  simp [h.compare_ne hm e he]

theorem get?_vacant : m.get? k = none := by
  rw [get?, h.find?_vacant hm, Option.map_none]

theorem modify_vacant (f : V → V) : m.modify k f = m := by
  refine congrArg SortedMap.mk ((List.map_congr_left fun e he => ?_).trans (List.map_id' _))
  exact if_neg (by simp [h.compare_ne hm e he])

theorem erase_vacant : m.erase k = m := by
  refine congrArg SortedMap.mk (List.filter_eq_self.mpr fun e he => ?_)
  simp [h.compare_ne hm e he]

end Vacant

theorem insertEntry_append (h : Cut k before after) (v : V) (rest : List (K × V)) :
    insertEntry k v (before ++ rest) = before ++ insertEntry k v rest := by
  have hbefore := h.before
  clear h
  induction before with
  | nil => rfl
  | cons a before ih =>
    rw [List.cons_append, insertEntry, hbefore a List.mem_cons_self]
    dsimp only
    rw [ih (fun e he => hbefore e (List.mem_cons_of_mem _ he)), List.cons_append]

theorem insert_vacant (h : Cut k before after) (hm : m.entries = before ++ after) (v : V) :
    (m.insert k v).entries = before ++ (k, v) :: after := by
  rw [insert, hm, h.insertEntry_append]
  cases after with
  | nil => rfl
  | cons a after => rw [insertEntry, h.after a List.mem_cons_self]

section Present

variable (h : Cut k before after) (he : compare k e.1 = .eq) (hm : m.entries = before ++ e :: after)

include h he hm

theorem find?_present : m.find? k = some e := by
  have hbefore : before.find? (fun e => compare k e.1 == .eq) = none := by
    rw [List.find?_eq_none]
    intro a ha
    simp [h.before a ha]
  rw [find?, hm, List.find?_append, hbefore, Option.none_or,
    List.find?_cons_of_pos (by simp [he])]

theorem get?_present : m.get? k = some e.2 := by
  rw [get?, h.find?_present he hm, Option.map_some]

theorem insert_present (v : V) : (m.insert k v).entries = before ++ (e.1, v) :: after := by
  rw [insert, hm, h.insertEntry_append, insertEntry, he]

theorem erase_present : (m.erase k).entries = before ++ after := by
  have hvacant : (erase ⟨before ++ after⟩ k).entries = before ++ after :=
    congrArg entries (h.erase_vacant rfl)
  rw [erase] at hvacant ⊢
  rw [hm, List.filter_append, List.filter_cons_of_neg (by simp [he]), ← List.filter_append, hvacant]

theorem modify_present (f : V → V) :
    (m.modify k f).entries = before ++ (e.1, f e.2) :: after := by
  have hvacant : (modify ⟨before ++ after⟩ k f).entries = before ++ after :=
    congrArg entries (h.modify_vacant rfl f)
  rw [modify, List.map_append] at hvacant
  have hparts := List.append_inj hvacant (by simp)
  rw [modify, hm, List.map_append, List.map_cons, hparts.1, hparts.2, if_pos (by simp [he])]

end Present

end Cut

/-- A sorted map is cut at each of its keys. -/
theorem exists_cut [TransOrd K] [LawfulEqOrd K] {m : SortedMap K V} (h : m.Sorted) {k : K} {v : V}
    (hget : m.get? k = some v) :
    ∃ before after, m.entries = before ++ (k, v) :: after ∧ Cut k before after := by
  obtain ⟨before, after, hm⟩ := List.append_of_mem ((get?_eq_some_iff h).mp hget)
  refine ⟨before, after, hm, ?_⟩
  rw [Sorted, hm] at h
  obtain ⟨-, hafter, hbefore⟩ := List.pairwise_append.mp h
  constructor
  · intro e he
    exact OrientedCmp.gt_of_lt (hbefore e he (k, v) List.mem_cons_self)
  · intro e he
    exact (List.pairwise_cons.mp hafter).1 e he

end Dataflow.SortedMap

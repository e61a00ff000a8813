import Mathlib.Data.List.Dedup
import Mathlib.Data.List.Perm.Subperm
import Dataflow.Proofs.Log.KeyValues

/-!
# Replay in any order

The records of a log may have sequence numbers in any order. The newest record of a key is the one
with the greatest number, and the last of them if there is a tie.

A look-up should give the value of the newest record. It does if the records of the key ascend, or
if the index has room for all keys; every other key can meet a stale record, because an index that
has evicted a key forgets how new the key's record was. When an older record of the key is replayed
after that, the index takes it in.

* `Record.Newest`, `Record.Settled`: the newest record of a key; when look-ups are bound to find it.
* `RecencyIndex.Follows`: what an index knows of frames in any order.
* `Session.start_answers`: what look-ups answer after an opening, for all images and all bounds.
* `Session.start_answers_stale`: a look-up that answers with an older record.
-/

namespace Dataflow

open Std

/-! ## The newest record -/

namespace Record

/-- The newest record of a key: none of the key has a greater sequence number, and those behind it
have smaller ones. -/
structure Newest (rs : List Record) (key : Bytes) (before : List Record) (r : Record)
    (after : List Record) : Prop where
  split : rs = before ++ r :: after
  key_eq : r.key = key
  before_le : ∀ r' ∈ before, r'.key = key → r'.sequence.number ≤ r.sequence.number
  after_lt : ∀ r' ∈ after, r'.key = key → r'.sequence.number < r.sequence.number

/-- The records of a key ascend, or there are no more keys than an index has room for. -/
def Settled (bound : Nat) (rs : List Record) (key : Bytes) : Prop :=
  Ascending (rs.filter (·.key = key)) ∨ (rs.map (·.key)).dedup.length ≤ bound

end Record

/-- What the newest frame of a key is: that of the key's newest record. -/
inductive NewestAt (rs : List Record) (key : Bytes) : Option Extent → Prop
  | missing (hmissing : ∀ r ∈ rs, r.key ≠ key) : NewestAt rs key none
  | placed (before : List Record) (r : Record) (after : List Record)
      (hnewest : Record.Newest rs key before r after) :
      NewestAt rs key (some ⟨(Record.logBytes before).length, r.frame.length, r.sequence⟩)

theorem newestAt_layout (rs : List Record) (key : Bytes) :
    NewestAt rs key (Log.newest? key (PlacedFrame.layout 0 rs)) := by
  induction rs using List.reverseRecOn with
  | nil => exact .missing (by simp)
  | append_singleton rs r ih =>
    rw [PlacedFrame.layout_concat, Log.newest?_append, r.key_asFrame, r.extent_asFrame]
    generalize Log.newest? key (PlacedFrame.layout 0 rs) = found at ih
    by_cases hkey : r.key = key
    · rw [if_pos hkey]
      cases ih with
      | missing hmissing =>
        refine .placed rs r [] ⟨rfl, hkey, ?_, by simp⟩
        intro r' hr' hkey'
        exact absurd hkey' (hmissing r' hr')
      | placed before best after hnewest =>
        obtain ⟨rfl, hbest, hbefore, hafter⟩ := hnewest
        dsimp only
        split
        · rename_i hle
          refine .placed _ r [] ⟨rfl, hkey, ?_, by simp⟩
          intro r' hr' hkey'
          rcases List.mem_append.mp hr' with hr' | hr'
          · exact Nat.le_trans (hbefore r' hr' hkey') hle
          · rcases List.mem_cons.mp hr' with rfl | hr'
            · exact hle
            · exact Nat.le_trans (Nat.le_of_lt (hafter r' hr' hkey')) hle
        · rename_i hgt
          refine .placed before best (after ++ [r]) ⟨by simp, hbest, hbefore, ?_⟩
          intro r' hr' hkey'
          rcases List.mem_append.mp hr' with hr' | hr'
          · exact hafter r' hr' hkey'
          · rw [List.mem_singleton.mp hr']
            omega
    · rw [if_neg hkey]
      cases ih with
      | missing hmissing =>
        refine .missing fun r' hr' => ?_
        rcases List.mem_append.mp hr' with hr' | hr'
        · exact hmissing r' hr'
        · rw [List.mem_singleton.mp hr']
          exact hkey
      | placed before best after hnewest =>
        obtain ⟨rfl, hbest, hbefore, hafter⟩ := hnewest
        refine .placed before best (after ++ [r]) ⟨by simp, hbest, hbefore, ?_⟩
        intro r' hr' hkey'
        rcases List.mem_append.mp hr' with hr' | hr'
        · exact hafter r' hr' hkey'
        · rw [List.mem_singleton.mp hr'] at hkey'
          exact absurd hkey' hkey

theorem PlacedFrame.mem_layout {rs : List Record} {f : PlacedFrame}
    (hf : f ∈ PlacedFrame.layout 0 rs) :
    ∃ before r after, rs = before ++ r :: after ∧
      f = ⟨(Record.logBytes before).length, r.asFrame⟩ := by
  induction rs using List.reverseRecOn with
  | nil => cases hf
  | append_singleton rs r ih =>
    rw [PlacedFrame.layout_concat] at hf
    rcases List.mem_append.mp hf with hf | hf
    · obtain ⟨before, r', after, rfl, rfl⟩ := ih hf
      exact ⟨before, r', after ++ [r], by simp, rfl⟩
    · rw [List.mem_singleton.mp hf]
      exact ⟨rs, r, [], rfl, rfl⟩

/-! ## What the index knows -/

namespace RecencyIndex

/-- What an index knows of frames in any order: the extent that it has for a key is that of a frame
of the key. It is that of the newest one if the key is settled. Unless the index is partial it has an
extent for every key that has a frame. -/
structure Follows (settled : Bytes → Prop) (x : RecencyIndex) (frames : List PlacedFrame) :
    Prop where
  known {key : Bytes} {extent : Extent} :
    (x.entries.get? key).map (·.extent) = some extent →
      ∃ f ∈ frames, f.frame.key = key ∧ f.extent = extent
  newest {key : Bytes} {extent : Extent} :
    settled key → (x.entries.get? key).map (·.extent) = some extent →
      Log.newest? key frames = some extent
  complete {key : Bytes} :
    x.isPartial = false → x.entries.get? key = none → Log.newest? key frames = none

end RecencyIndex

theorem Log.exists_of_newest? {key : Bytes} {frames : List PlacedFrame} {extent : Extent}
    (h : newest? key frames = some extent) :
    ∃ f ∈ frames, f.frame.key = key ∧ f.extent = extent := by
  induction frames using List.reverseRecOn generalizing extent with
  | nil => cases h
  | append_singleton frames f ih =>
    have hlast : f ∈ frames ++ [f] := by simp
    have hearlier : newest? key frames = some extent →
        ∃ f' ∈ frames ++ [f], f'.frame.key = key ∧ f'.extent = extent := by
      intro hnewest
      obtain ⟨f', hf', hfound⟩ := ih hnewest
      exact ⟨f', List.mem_append_left _ hf', hfound⟩
    rw [newest?_append] at h
    split at h
    · rename_i hkey
      cases hbest : newest? key frames with
      | none =>
        rw [hbest] at h
        exact ⟨f, hlast, hkey, Option.some.inj h⟩
      | some best =>
        rw [hbest] at h
        dsimp only at h
        split at h
        · exact ⟨f, hlast, hkey, Option.some.inj h⟩
        · exact hearlier (hbest.trans h)
    · exact hearlier h

namespace RecencyIndex

theorem isPartial_of_evict {x : RecencyIndex} (h : x.evict.2.isPartial = false) :
    x.isPartial = false := by
  unfold evict at h
  split at h
  · exact h
  · simp [isPartial] at h

/-- An index that has lost no key after an insertion had lost none before. -/
theorem isPartial_of_insert {x : RecencyIndex} {key : Bytes} {extent : Extent}
    (h : (x.insert key extent).2.isPartial = false) : x.isPartial = false := by
  unfold insert at h
  dsimp only at h
  split at h
  · exact h
  · split at h
    · exact isPartial_of_evict (x := { x with clock := x.clock + 1 }) h
    · exact h

variable {settled : Bytes → Prop} {x : RecencyIndex} {frames : List PlacedFrame}

/-- An index that tracks the newest frames of all keys follows. -/
theorem Tracks.follows (h : Tracks x frames) : Follows settled x frames where
  known hknown := Log.exists_of_newest? (h.known hknown)
  newest _ hknown := h.known hknown
  complete := h.complete

/-- As long as an index has lost nothing, it tracks frames in any order. -/
theorem Tracks.insert_whole (h : Tracks x frames) (hpartial : x.isPartial = false)
    (f : PlacedFrame) : Tracks (x.insert f.frame.key f.extent).2 (frames ++ [f]) := by
  refine h.insert_of ?_ ?_
  · rw [Log.newest?_append, if_pos rfl, x.get?_insert_self]
    cases hknown : x.entries.get? f.frame.key with
    | none => rw [h.complete hpartial hknown]
    | some known =>
      rw [h.known (congrArg (Option.map (·.extent)) hknown)]
  · intro key' hkey
    rw [Log.newest?_append, if_neg (Ne.symm hkey)]

namespace Follows

theorem mono {settled' : Bytes → Prop} (h : Follows settled x frames)
    (hsettled : ∀ key, settled' key → settled key) : Follows settled' x frames :=
  { h with newest := fun hkey hextent => h.newest (hsettled _ hkey) hextent }

theorem get (h : Follows settled x frames) (key : Bytes) :
    Follows settled (x.get key).2 frames where
  known hextent := h.known (x.extent_get key _ ▸ hextent)
  newest hsettled hextent := h.newest hsettled (x.extent_get key _ ▸ hextent)
  complete {key'} hpartial hnone := by
    refine h.complete (x.isPartial_get key ▸ hpartial) ?_
    have hextent := x.extent_get key key'
    rw [hnone] at hextent
    exact Option.map_eq_none_iff.mp hextent.symm

/-- An insertion keeps what an index knows of the other keys. -/
theorem insert_of {frames' : List PlacedFrame} {key : Bytes} {extent : Extent}
    (h : Follows settled x frames) (hsub : frames ⊆ frames')
    (hknown : ∀ e, ((x.insert key extent).2.entries.get? key).map (·.extent) = some e →
      ∃ f ∈ frames', f.frame.key = key ∧ f.extent = e)
    (hnewest : settled key →
      ((x.insert key extent).2.entries.get? key).map (·.extent) = Log.newest? key frames')
    (hothers : ∀ key', key' ≠ key → Log.newest? key' frames' = Log.newest? key' frames) :
    Follows settled (x.insert key extent).2 frames' := by
  have hkept : ∀ key' e, key' ≠ key →
      ((x.insert key extent).2.entries.get? key').map (·.extent) = some e →
        (x.entries.get? key').map (·.extent) = some e := by
    intro key' e hkey he
    rcases x.get?_insert_of_ne hkey extent with ⟨hsame, -⟩ | ⟨hgone | hsame, -⟩
    · exact hsame ▸ he
    · rw [hgone] at he
      cases he
    · exact hsame ▸ he
  constructor
  · intro key' e he
    by_cases hkey : key' = key
    · subst hkey
      exact hknown e he
    · obtain ⟨f, hf, hfound⟩ := h.known (hkept key' e hkey he)
      exact ⟨f, hsub hf, hfound⟩
  · intro key' e hsettled he
    by_cases hkey : key' = key
    · subst hkey
      rw [← hnewest hsettled, he]
    · rw [hothers key' hkey]
      exact h.newest hsettled (hkept key' e hkey he)
  · intro key' hpartial hnone
    by_cases hkey : key' = key
    · subst hkey
      have hself := x.get?_insert_self key' extent
      rw [hnone] at hself
      split at hself
      · cases hself
      · split at hself <;> cases hself
    · rw [hothers key' hkey]
      rcases x.get?_insert_of_ne hkey extent with ⟨hsame, hpartial'⟩ | ⟨-, hpartial'⟩
      · exact h.complete (hpartial' ▸ hpartial) (hsame ▸ hnone)
      · rw [hpartial] at hpartial'
        cases hpartial'

/-- An index follows a frame that is appended, if no frame of a settled key is newer. -/
theorem insert (h : Follows settled x frames) {f : PlacedFrame}
    (hle : settled f.frame.key → ∀ best, Log.newest? f.frame.key frames = some best →
      best.sequence.number ≤ f.extent.sequence.number) :
    Follows settled (x.insert f.frame.key f.extent).2 (frames ++ [f]) := by
  have hself := x.get?_insert_self f.frame.key f.extent
  refine h.insert_of (List.subset_append_left _ _) ?_ ?_ ?_
  · intro e he
    rw [hself] at he
    cases hentry : x.entries.get? f.frame.key with
    | none =>
      rw [hentry] at he
      exact ⟨f, by simp, rfl, Option.some.inj he⟩
    | some known =>
      rw [hentry] at he
      dsimp only at he
      split at he
      · exact ⟨f, by simp, rfl, Option.some.inj he⟩
      · obtain ⟨f', hf', hkey, hextent⟩ := h.known (congrArg (Option.map (·.extent)) hentry)
        exact ⟨f', List.mem_append_left _ hf', hkey, hextent.trans (Option.some.inj he)⟩
  · intro hsettled
    rw [hself, Log.newest?_append_of_le rfl (hle hsettled)]
    cases hentry : x.entries.get? f.frame.key with
    | none => rfl
    | some known =>
      have hbest := h.newest hsettled (congrArg (Option.map (·.extent)) hentry)
      simp [hle hsettled known.extent hbest]
  · intro key' hkey
    rw [Log.newest?_append, if_neg (Ne.symm hkey)]

/-- A key that is missing may be given its newest frame again. -/
theorem readmit (h : Follows settled x frames) {key : Bytes} {extent : Extent}
    (hmissing : x.entries.get? key = none) (hnewest : Log.newest? key frames = some extent) :
    Follows settled (x.insert key extent).2 frames := by
  have hself := x.get?_insert_self key extent
  rw [hmissing] at hself
  refine h.insert_of (List.Subset.refl _) ?_ ?_ fun _ _ => rfl
  · intro e he
    rw [hself] at he
    rw [← Option.some.inj he]
    exact Log.exists_of_newest? hnewest
  · intro _
    rw [hself, hnewest]

end Follows

/-! ## An index with room for all keys -/

/-- An index that has room for some keys, holds no others and has lost none. -/
structure Whole (x : RecencyIndex) (keys : List Bytes) : Prop where
  sorted : x.entries.Sorted
  subset : x.entries.keys ⊆ keys
  room : keys.dedup.length ≤ x.capacity
  evictions_eq : x.evictions = 0

theorem Whole.insert {keys : List Bytes} (h : x.Whole keys) {key : Bytes} (hkey : key ∈ keys)
    (extent : Extent) : (x.insert key extent).2.Whole keys := by
  unfold RecencyIndex.insert
  dsimp only
  split
  · refine ⟨SortedMap.sorted_modify h.sorted _ _, ?_, h.room, h.evictions_eq⟩
    rw [SortedMap.keys_modify]
    exact h.subset
  · rename_i hmissing
    have hnew : key ∉ x.entries.keys := SortedMap.get?_eq_none_iff.mp hmissing
    have hnodup : (key :: x.entries.keys).Nodup :=
      List.nodup_cons.mpr ⟨hnew, SortedMap.nodup_keys h.sorted⟩
    have hsubset : key :: x.entries.keys ⊆ keys.dedup := by
      intro key' hkey'
      rw [List.mem_dedup]
      rcases List.mem_cons.mp hkey' with rfl | hkey'
      · exact hkey
      · exact h.subset hkey'
    have hlen := (List.subperm_of_subset hnodup hsubset).length_le
    rw [List.length_cons, SortedMap.keys, List.length_map] at hlen
    have hroom : ¬ x.capacity ≤ x.entries.entries.length := by
      have := h.room
      omega
    have hfits : ¬ x.capacity ≤ ({ x with clock := x.clock + 1 } : RecencyIndex).size := hroom
    rw [if_neg hfits]
    refine ⟨SortedMap.sorted_insert h.sorted _ _, ?_, h.room, h.evictions_eq⟩
    intro key' hkey'
    obtain ⟨e, he, rfl⟩ := List.mem_map.mp hkey'
    refine SortedMap.forall_insertEntry (P := (· ∈ keys)) ?_ hkey e he
    intro e he
    exact h.subset (List.mem_map_of_mem he)

end RecencyIndex

/-! ## Replay -/

namespace Log

variable {rs : List Record}

theorem whole_replay {keys : List Bytes} {x : RecencyIndex} (h : x.Whole keys)
    {frames : List PlacedFrame} (hframes : ∀ f ∈ frames, f.frame.key ∈ keys) :
    (replay x frames).Whole keys := by
  induction frames generalizing x with
  | nil => exact h
  | cons f frames ih =>
    obtain ⟨hf, hframes⟩ := List.forall_mem_cons.mp hframes
    exact ih (h.insert hf f.extent) hframes

/-- An index that has lost no key tracks all frames that were replayed, in whatever order. -/
theorem tracks_replay_of_whole {capacity : Nat}
    (hpartial : (replay (RecencyIndex.ofCapacity capacity)
      (PlacedFrame.layout 0 rs)).isPartial = false) :
    (replay (RecencyIndex.ofCapacity capacity) (PlacedFrame.layout 0 rs)).Tracks
      (PlacedFrame.layout 0 rs) := by
  induction rs using List.reverseRecOn with
  | nil => exact RecencyIndex.tracks_ofCapacity capacity
  | append_singleton rs r ih =>
    rw [PlacedFrame.layout_concat, replay_append] at hpartial ⊢
    have hbefore := RecencyIndex.isPartial_of_insert hpartial
    exact (ih hbefore).insert_whole hbefore _

/-- The index follows the frames of the keys whose records ascend. -/
theorem follows_replay_of_ascending (capacity : Nat) :
    (replay (RecencyIndex.ofCapacity capacity) (PlacedFrame.layout 0 rs)).Follows
      (fun key => Record.Ascending (rs.filter (·.key = key))) (PlacedFrame.layout 0 rs) := by
  induction rs using List.reverseRecOn with
  | nil => exact (RecencyIndex.tracks_ofCapacity capacity).follows
  | append_singleton rs r ih =>
    rw [PlacedFrame.layout_concat, replay_append]
    have hsettled : ∀ key, Record.Ascending ((rs ++ [r]).filter (·.key = key)) →
        Record.Ascending (rs.filter (·.key = key)) := by
      intro key hasc
      rw [List.filter_append] at hasc
      exact (List.pairwise_append.mp hasc).1
    refine (ih.mono hsettled).insert ?_
    intro hasc best hbest
    dsimp only at hasc hbest
    rw [r.key_asFrame] at hasc hbest
    have hnewest := newestAt_layout rs r.key
    rw [hbest] at hnewest
    cases hnewest with
    | placed before r' after hnewest =>
      have hr' : r' ∈ rs.filter (·.key = r.key) := by
        rw [List.mem_filter, hnewest.split]
        simp [hnewest.key_eq]
      have hr : r ∈ [r].filter (·.key = r.key) := by simp
      rw [List.filter_append] at hasc
      exact (List.pairwise_append.mp hasc).2.2 r' hr' r hr

theorem follows_replay (bound : Nat) :
    (replay (RecencyIndex.ofCapacity bound) (PlacedFrame.layout 0 rs)).Follows
      (Record.Settled bound rs) (PlacedFrame.layout 0 rs) := by
  by_cases hroom : (rs.map (·.key)).dedup.length ≤ bound
  · have hempty : (RecencyIndex.ofCapacity bound).Whole (rs.map (·.key)) :=
      ⟨SortedMap.sorted_empty, List.nil_subset _, Nat.le_trans hroom (Nat.le_max_left _ _), rfl⟩
    have hkeys : ∀ f ∈ PlacedFrame.layout 0 rs, f.frame.key ∈ rs.map (·.key) := by
      intro f hf
      obtain ⟨before, r, after, rfl, rfl⟩ := PlacedFrame.mem_layout hf
      dsimp only
      rw [r.key_asFrame]
      simp
    have hwhole := whole_replay hempty hkeys
    have hpartial : (replay (RecencyIndex.ofCapacity bound)
        (PlacedFrame.layout 0 rs)).isPartial = false := by
      simp [RecencyIndex.isPartial, hwhole.evictions_eq]
    exact (tracks_replay_of_whole hpartial).follows
  · refine (follows_replay_of_ascending bound).mono ?_
    rintro key (hasc | hroom')
    · exact hasc
    · exact absurd hroom' hroom

/-! ## Questions -/

deriving instance DecidableEq for Answer

/-- The call is a look-up or asks for membership. -/
def Call.IsQuery : Call → Prop
  | .lookup _ | .contains _ => True
  | _ => False

/-- What an opened log over some records may answer. A look-up gives the value of a record of the
key, and of the newest one if the key is settled; it fails only if the key has no record. -/
def Answers (bound : Nat) (rs : List Record) : Call → Answer → Prop
  | .lookup key, .value result =>
    (result = .error (.notFound (.logKey key)) ∧ ∀ r ∈ rs, r.key ≠ key) ∨
      ∃ before r after, rs = before ++ r :: after ∧ r.key = key ∧ result = .ok r.value ∧
        (Record.Settled bound rs key → Record.Newest rs key before r after)
  | .contains key, .membership result => result = .ok (rs.any (·.key = key))
  | _, _ => False

/-- Where a key may be found. -/
inductive Located (settled : Prop) (rs : List Record) (key : Bytes) : Option Extent → Prop
  | missing (hmissing : ∀ r ∈ rs, r.key ≠ key) : Located settled rs key none
  | placed (before : List Record) (r : Record) (after : List Record)
      (hsplit : rs = before ++ r :: after) (hkey : r.key = key)
      (hnewest : settled → Record.Newest rs key before r after) :
      Located settled rs key (some ⟨(Record.logBytes before).length, r.frame.length, r.sequence⟩)

theorem Located.isSome {settled : Prop} {key : Bytes} {found : Option Extent}
    (h : Located settled rs key found) : found.isSome = rs.any (·.key = key) := by
  cases h with
  | missing hmissing => simpa using hmissing
  | placed before r after hsplit hkey hnewest => simp [hsplit, hkey]

theorem located_newest (settled : Prop) (rs : List Record) (key : Bytes) :
    Located settled rs key (newest? key (PlacedFrame.layout 0 rs)) := by
  have hnewest := newestAt_layout rs key
  generalize newest? key (PlacedFrame.layout 0 rs) = found at hnewest
  cases hnewest with
  | missing hmissing => exact .missing hmissing
  | placed before r after hnewest =>
    exact .placed before r after hnewest.split hnewest.key_eq fun _ => hnewest

variable {σ : Type} {Holds : σ → Bytes → Prop} {log : Log σ} {settled : Bytes → Prop}

/-- The store of an open log holds the frames of some records, and the index follows them. -/
structure Browsable (Holds : σ → Bytes → Prop) (settled : Bytes → Prop) (log : Log σ)
    (rs : List Record) : Prop extends Stored Holds log rs where
  follows : log.index.Follows settled (PlacedFrame.layout 0 rs)

theorem Browsable.located (h : log.Browsable Holds settled rs) {key : Bytes} {extent : Extent}
    (hextent : (log.index.entries.get? key).map (·.extent) = some extent) :
    Located (settled key) rs key (some extent) := by
  by_cases hsettled : settled key
  · rw [← h.follows.newest hsettled hextent]
    exact located_newest _ rs key
  · obtain ⟨f, hf, hkey, rfl⟩ := h.follows.known hextent
    obtain ⟨before, r, after, hsplit, rfl⟩ := PlacedFrame.mem_layout hf
    rw [r.extent_asFrame]
    exact .placed before r after hsplit (r.key_asFrame.symm.trans hkey)
      fun hkey => absurd hkey hsettled

variable [Store σ]

theorem find_located (readable : Store.Readable Holds) (h : log.Browsable Holds settled rs)
    (key : Bytes) :
    ∃ found log', log.find key = (.ok found, log') ∧ Located (settled key) rs key found ∧
      log'.Browsable Holds settled rs ∧
      (log.index.contains key = false → log'.index = log.index ∧
        found = newest? key (PlacedFrame.layout 0 rs)) := by
  rcases hget : log.index.get key with ⟨found, index⟩
  have hfst := log.index.get_fst key
  rw [hget] at hfst
  unfold find
  rw [hget]
  cases found with
  | some extent =>
    have hfollows : index.Follows settled (PlacedFrame.layout 0 rs) := by
      have hkept := h.follows.get key
      rw [hget] at hkept
      exact hkept
    refine ⟨_, { log with index := index }, rfl, h.located hfst.symm,
      { h with follows := hfollows }, ?_⟩
    intro hmissing
    rw [contains_index, ← Option.isSome_map (f := fun e : IndexEntry => e.extent), ← hfst]
      at hmissing
    cases hmissing
  | none =>
    dsimp only
    split
    · have hcounted : { log with scans := log.scans + 1 }.Browsable Holds settled rs := { h with }
      obtain ⟨s', hscan, hs'⟩ := scan_stored readable hcounted.toStored key
      exact ⟨_, _, hscan, located_newest _ rs key, { hcounted with holds := hs' },
        fun _ => ⟨rfl, rfl⟩⟩
    · rename_i hpartial
      have hmissing : log.index.entries.get? key = none := Option.map_eq_none_iff.mp hfst.symm
      have hnone := h.follows.complete (Bool.eq_false_iff.mpr hpartial) hmissing
      refine ⟨_, log, rfl, ?_, h, fun _ => ⟨rfl, hnone.symm⟩⟩
      rw [← hnone]
      exact located_newest _ rs key

theorem lookup_answers {bound : Nat} (readable : Store.Readable Holds)
    (h : log.Browsable Holds (Record.Settled bound rs) rs) (key : Bytes) :
    ∃ result log', log.lookup key = (result, log') ∧
      Answers bound rs (.lookup key) (.value result) ∧
      log'.Browsable Holds (Record.Settled bound rs) rs := by
  have hcounted : { log with lookups := log.lookups + 1 }.Browsable Holds
    (Record.Settled bound rs) rs := { h with }
  obtain ⟨found, log₁, hfind, hlocated, h₁, hindex⟩ := find_located readable hcounted key
  unfold lookup
  dsimp only
  rw [if_neg (by simp [h.unpoisoned]), hfind]
  cases hlocated with
  | missing hmissing => exact ⟨_, log₁, rfl, Or.inl ⟨rfl, hmissing⟩, h₁⟩
  | placed before r after hsplit hkey hnewest =>
    obtain ⟨s', hvalue, hs'⟩ := valueAt_stored readable h₁.toStored hsplit
    have h₂ : { log₁ with store := s' }.Browsable Holds (Record.Settled bound rs) rs :=
      { h₁ with holds := hs' }
    have hanswers : Answers bound rs (.lookup key) (.value (.ok r.value)) :=
      Or.inr ⟨before, r, after, hsplit, hkey, rfl, hnewest⟩
    dsimp only
    rw [hvalue]
    dsimp only
    split
    · exact ⟨_, _, rfl, hanswers, h₂⟩
    · rename_i hmissing
      have hmissing := Bool.eq_false_iff.mpr hmissing
      obtain ⟨hsame, hfound⟩ := hindex hmissing
      have hnone : log₁.index.entries.get? key = none := by
        rw [hsame]
        rw [contains_index] at hmissing
        exact Option.isSome_eq_false_iff.mp hmissing |> Option.isNone_iff_eq_none.mp
      exact ⟨_, _, rfl, hanswers, { h₂ with follows := h₁.follows.readmit hnone hfound.symm }⟩

theorem contains_answers {bound : Nat} (readable : Store.Readable Holds)
    (h : log.Browsable Holds (Record.Settled bound rs) rs) (key : Bytes) :
    ∃ result log', log.contains key = (result, log') ∧
      Answers bound rs (.contains key) (.membership result) ∧
      log'.Browsable Holds (Record.Settled bound rs) rs := by
  obtain ⟨found, log', hfind, hlocated, h', -⟩ := find_located readable h key
  refine ⟨.ok found.isSome, log', ?_, congrArg Except.ok hlocated.isSome, h'⟩
  unfold contains
  rw [if_neg (by simp [h.unpoisoned]), hfind]

theorem query_answers {bound : Nat} (readable : Store.Readable Holds)
    (h : log.Browsable Holds (Record.Settled bound rs) rs) {c : Call} (hc : c.IsQuery) :
    ∃ answer log', log.call c = (answer, log') ∧ Answers bound rs c answer ∧
      log'.Browsable Holds (Record.Settled bound rs) rs := by
  cases c with
  | lookup key =>
    obtain ⟨result, log', hlookup, hanswers, h'⟩ := lookup_answers readable h key
    exact ⟨.value result, log', by rw [call, hlookup], hanswers, h'⟩
  | contains key =>
    obtain ⟨result, log', hcontains, hanswers, h'⟩ := contains_answers readable h key
    exact ⟨.membership result, log', by rw [call, hcontains], hanswers, h'⟩
  | write key value durability allowReplace => exact hc.elim
  | flush => exact hc.elim
  | sync => exact hc.elim

end Log

namespace Session

variable {σ : Type} [Store σ] {Holds : σ → Bytes → Prop} {rs : List Record}

theorem queries_answer {bound : Nat} (readable : Store.Readable Holds) {log : Log σ}
    (h : log.Browsable Holds (Record.Settled bound rs) rs) {queries : List Log.Call}
    (hqueries : ∀ c ∈ queries, c.IsQuery) :
    List.Forall₂ (Log.Answers bound rs) queries ((opened log).answers (queries.map .call)) := by
  induction queries generalizing log with
  | nil => exact .nil
  | cons c queries ih =>
    obtain ⟨hc, hqueries⟩ := List.forall_mem_cons.mp hqueries
    obtain ⟨answer, log', hcall, hanswers, h'⟩ := Log.query_answers readable h hc
    rw [List.map_cons, answers, step, call, hcall]
    exact .cons hanswers (ih h' hqueries)

/-- What is answered after an opening, for any image, any bound and any questions. Whether a key is
there is always told rightly, and a look-up gives the value of a record of the key. It is the newest
record if the records of the key ascend, or if the index has room for all keys. -/
theorem start_answers (reliable : Store.Reliable Holds) {s : σ} {image : Bytes}
    (hs : Holds s image) (himage : Recoverable image rs) {settings : LogSettings}
    (hsettings : settings.validate = .ok ()) {queries : List Log.Call}
    (hqueries : ∀ c ∈ queries, c.IsQuery) :
    (start settings s).1 = .ok () ∧
      List.Forall₂ (Log.Answers settings.maxIndexEntries rs) queries
        ((start settings s).2.answers (queries.map .call)) := by
  obtain ⟨s', hopen, hs'⟩ := Log.open_eq reliable hsettings hs himage
  have hstored := Log.stored_ofFrames himage.fits settings
    (image.length - (Record.logBytes rs).length) hs'
  rw [start, hopen]
  exact ⟨rfl, queries_answer reliable.toReadable
    { hstored with follows := Log.follows_replay settings.maxIndexEntries } hqueries⟩

/-- Keys that ascend beside one that does not, and an index with room for one key. -/
theorem start_answers_oneEntry :
    let rs : List Record := [⟨[1], [10], .transient, true, ⟨5⟩⟩, ⟨[2], [20], .transient, true, ⟨6⟩⟩,
      ⟨[1], [11], .transient, true, ⟨3⟩⟩]
    let s := MemoryStore.ofBytes (Record.logBytes rs ++ [7])
    let queries : List Log.Call := [.lookup [1], .lookup [2], .contains [3], .lookup [1]]
    Recoverable (Record.logBytes rs ++ [7]) rs ∧
      (start { maxIndexEntries := 1 } s).1 = .ok () ∧
      List.Forall₂ (Log.Answers 1 rs) queries
        ((start { maxIndexEntries := 1 } s).2.answers (queries.map .call)) := by
  intro rs s queries
  have himage : Recoverable (Record.logBytes rs ++ [7]) rs := by
    refine ⟨fun r hr => ?_, [7], rfl, noFrame_of_short (by decide)⟩
    simp only [rs, List.mem_cons, List.not_mem_nil, or_false] at hr
    rcases hr with rfl | rfl | rfl <;> constructor <;> decide
  have hs : s.Holds (Record.logBytes rs ++ [7]) := rfl
  refine ⟨himage, start_answers MemoryStore.reliable hs himage rfl ?_⟩
  simp [queries, Log.Call.IsQuery]

/-- A look-up that gives the value of a record older than the newest one of its key, and changes its
answer when another key has been looked up. With room for two keys it gives the newest value. -/
theorem start_answers_stale :
    let newest : Record := ⟨[1], [10], .transient, true, ⟨5⟩⟩
    let other : Record := ⟨[2], [20], .transient, true, ⟨6⟩⟩
    let older : Record := ⟨[1], [11], .transient, true, ⟨3⟩⟩
    let s := MemoryStore.ofBytes (Record.logBytes [newest, other, older])
    let queries : List (Step MemoryStore) :=
      [.call (.lookup [1]), .call (.lookup [2]), .call (.lookup [1])]
    Record.Newest [newest, other, older] [1] [] newest [other, older] ∧
      (start { maxIndexEntries := 1 } s).2.answers queries =
        [.value (.ok [11]), .value (.ok [20]), .value (.ok [10])] ∧
      (start { maxIndexEntries := 2 } s).2.answers queries =
        [.value (.ok [10]), .value (.ok [20]), .value (.ok [10])] := by
  intro newest other older s queries
  refine ⟨⟨rfl, rfl, by simp, ?_⟩, ?_, ?_⟩
  · simp [newest, other, older]
  · decide +kernel
  · decide +kernel

end Session

end Dataflow

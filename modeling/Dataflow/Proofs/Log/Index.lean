import Dataflow.Log.Reading
import Dataflow.Proofs.SortedMap

/-!
# What the index of a log knows

The index may have lost keys, but what it says of a key is right, and as long as it has lost none
it knows all of them.

* `Log.newest?_append`: a frame that is appended becomes the newest of its key, unless an older one
  has a greater sequence number.
* `RecencyIndex.Tracks`: the invariant.
* `RecencyIndex.Tracks.get`, `Tracks.insert`, `Tracks.readmit`: every use of the index keeps it.
-/

namespace Dataflow

open Std

/-! ## The newest frame of a key -/

namespace Log

theorem newest?_append (key : Bytes) (frames : List PlacedFrame) (f : PlacedFrame) :
    newest? key (frames ++ [f]) =
      if f.frame.key = key then
        match newest? key frames with
        | none => some f.extent
        | some best =>
          if best.sequence.number ≤ f.extent.sequence.number then some f.extent else some best
      else
        newest? key frames := by
  rw [newest?, List.foldl_append]
  rfl

theorem newest?_append_of_le {key : Bytes} {frames : List PlacedFrame} {f : PlacedFrame}
    (hkey : f.frame.key = key)
    (hle : ∀ best, newest? key frames = some best →
      best.sequence.number ≤ f.extent.sequence.number) :
    newest? key (frames ++ [f]) = some f.extent := by
  rw [newest?_append, if_pos hkey]
  cases hbest : newest? key frames with
  | none => rfl
  | some best => simp [hle best hbest]

end Log

/-! ## Uses of the index -/

namespace RecencyIndex

theorem get_fst (x : RecencyIndex) (key : Bytes) :
    (x.get key).1 = (x.entries.get? key).map (·.extent) := by
  unfold get
  split <;> rename_i h <;> rw [h] <;> rfl

theorem isPartial_get (x : RecencyIndex) (key : Bytes) :
    (x.get key).2.isPartial = x.isPartial := by
  unfold get
  split <;> rfl

/-- Using a key changes no extent. -/
theorem extent_get (x : RecencyIndex) (key key' : Bytes) :
    ((x.get key).2.entries.get? key').map (·.extent) =
      (x.entries.get? key').map (·.extent) := by
  unfold get
  split
  · rfl
  · rw [SortedMap.get?_modify]
    split
    · cases x.entries.get? key' <;> rfl
    · rfl

theorem get?_evict (x : RecencyIndex) (key : Bytes) :
    x.evict.2.entries.get? key = x.entries.get? key ∧ x.evict.2.isPartial = x.isPartial ∨
      (x.evict.2.entries.get? key = none ∨ x.evict.2.entries.get? key = x.entries.get? key) ∧
        x.evict.2.isPartial = true := by
  unfold evict
  split
  · exact Or.inl ⟨rfl, rfl⟩
  · refine Or.inr ⟨?_, by simp [isPartial]⟩
    rw [SortedMap.get?_erase]
    split
    · exact Or.inl rfl
    · exact Or.inr rfl

/-- What an insertion makes of the key that is inserted. -/
theorem get?_insert_self (x : RecencyIndex) (key : Bytes) (extent : Extent) :
    ((x.insert key extent).2.entries.get? key).map (·.extent) =
      match x.entries.get? key with
      | none => some extent
      | some known =>
        if known.extent.sequence.number ≤ extent.sequence.number then some extent
        else some known.extent := by
  unfold insert
  dsimp only
  split
  · rename_i known hknown
    rw [hknown, SortedMap.get?_modify, if_pos ReflCmp.compare_self, hknown]
    dsimp only
    split <;> rfl
  · rename_i hnone
    rw [hnone, SortedMap.get?_insert, if_pos ReflCmp.compare_self]
    rfl

/-- An insertion leaves another key alone or evicts it, and then the index is partial. -/
theorem get?_insert_of_ne (x : RecencyIndex) {key key' : Bytes} (hne : key' ≠ key)
    (extent : Extent) :
    (x.insert key extent).2.entries.get? key' = x.entries.get? key' ∧
        (x.insert key extent).2.isPartial = x.isPartial ∨
      ((x.insert key extent).2.entries.get? key' = none ∨
        (x.insert key extent).2.entries.get? key' = x.entries.get? key') ∧
        (x.insert key extent).2.isPartial = true := by
  have hcompare : compare key' key ≠ .eq := fun h => hne (LawfulEqCmp.eq_of_compare h)
  unfold insert
  dsimp only
  split
  · refine Or.inl ⟨?_, rfl⟩
    rw [SortedMap.get?_modify, if_neg hcompare]
  · rw [SortedMap.get?_insert, if_neg hcompare]
    split
    · exact get?_evict { x with clock := x.clock + 1 } key'
    · exact Or.inl ⟨rfl, rfl⟩

/-- What an index holds after an insertion is the extent that was inserted, or it was there. -/
theorem extent_of_insert {x : RecencyIndex} {key key' : Bytes} {extent extent' : Extent}
    (h : ((x.insert key extent).2.entries.get? key').map (·.extent) = some extent') :
    key' = key ∧ extent' = extent ∨ (x.entries.get? key').map (·.extent) = some extent' := by
  by_cases hkey : key' = key
  · subst hkey
    rw [x.get?_insert_self] at h
    cases hknown : x.entries.get? key' with
    | none =>
      rw [hknown] at h
      exact .inl ⟨rfl, (Option.some.inj h).symm⟩
    | some known =>
      rw [hknown] at h
      dsimp only at h
      split at h
      · exact .inl ⟨rfl, (Option.some.inj h).symm⟩
      · exact .inr h
  · rcases x.get?_insert_of_ne hkey extent with ⟨hsame, -⟩ | ⟨hgone | hsame, -⟩
    · exact .inr (hsame ▸ h)
    · rw [hgone] at h
      cases h
    · exact .inr (hsame ▸ h)

/-! ## The invariant -/

/-- What an index knows of the frames of a log: the extent that it has for a key is that of the
key's newest frame, and unless it is partial it has one for every key that has a frame. -/
structure Tracks (x : RecencyIndex) (frames : List PlacedFrame) : Prop where
  known {key : Bytes} {extent : Extent} :
    (x.entries.get? key).map (·.extent) = some extent → Log.newest? key frames = some extent
  complete {key : Bytes} :
    x.isPartial = false → x.entries.get? key = none → Log.newest? key frames = none

theorem tracks_ofCapacity (capacity : Nat) : Tracks (ofCapacity capacity) [] where
  known h := by cases h
  complete _ _ := rfl

namespace Tracks

variable {x : RecencyIndex} {frames : List PlacedFrame}

theorem get (h : Tracks x frames) (key : Bytes) : Tracks (x.get key).2 frames where
  known {key' extent} hextent := h.known (x.extent_get key key' ▸ hextent)
  complete {key'} hpartial hnone := by
    refine h.complete (x.isPartial_get key ▸ hpartial) ?_
    have hextent := x.extent_get key key'
    rw [hnone] at hextent
    exact Option.map_eq_none_iff.mp hextent.symm

/-- An insertion keeps the index right about all keys but the one that is inserted, whose newest
frame may be another one afterwards. -/
theorem insert_of {frames' : List PlacedFrame} {key : Bytes} {extent : Extent}
    (h : Tracks x frames)
    (hself : ((x.insert key extent).2.entries.get? key).map (·.extent) = Log.newest? key frames')
    (hothers : ∀ key', key' ≠ key → Log.newest? key' frames' = Log.newest? key' frames) :
    Tracks (x.insert key extent).2 frames' where
  known {key' extent'} hextent := by
    by_cases hkey : key' = key
    · subst hkey
      rw [← hself, hextent]
    · rw [hothers key' hkey]
      rcases x.get?_insert_of_ne hkey extent with ⟨hsame, -⟩ | ⟨hgone | hsame, -⟩
      · exact h.known (hsame ▸ hextent)
      · rw [hgone] at hextent
        cases hextent
      · exact h.known (hsame ▸ hextent)
  complete {key'} hpartial hnone := by
    by_cases hkey : key' = key
    · subst hkey
      rw [← hself, hnone]
      rfl
    · rw [hothers key' hkey]
      rcases x.get?_insert_of_ne hkey extent with ⟨hsame, hpartial'⟩ | ⟨-, hpartial'⟩
      · exact h.complete (hpartial' ▸ hpartial) (hsame ▸ hnone)
      · rw [hpartial] at hpartial'
        cases hpartial'

/-- The index follows a frame that is appended, if no frame of its key is newer. -/
theorem insert (h : Tracks x frames) {f : PlacedFrame}
    (hle : ∀ best, Log.newest? f.frame.key frames = some best →
      best.sequence.number ≤ f.extent.sequence.number) :
    Tracks (x.insert f.frame.key f.extent).2 (frames ++ [f]) := by
  refine h.insert_of ?_ ?_
  · rw [Log.newest?_append_of_le rfl hle, x.get?_insert_self]
    cases hknown : x.entries.get? f.frame.key with
    | none => rfl
    | some known =>
      have hbest := h.known (congrArg (Option.map (·.extent)) hknown)
      simp [hle known.extent hbest]
  · intro key' hkey
    rw [Log.newest?_append, if_neg (Ne.symm hkey)]

/-- A key that is missing may be given its newest frame again. -/
theorem readmit (h : Tracks x frames) {key : Bytes} {extent : Extent}
    (hmissing : x.entries.get? key = none) (hnewest : Log.newest? key frames = some extent) :
    Tracks (x.insert key extent).2 frames := by
  refine h.insert_of ?_ fun _ _ => rfl
  rw [x.get?_insert_self, hmissing, hnewest]

end Tracks

end RecencyIndex

end Dataflow

import Mathlib.Logic.Basic
import Dataflow.Log.Basic
import Dataflow.Proofs.Frame.Reading

/-!
# The frames of a store

A log is a run of frames. Any byte string starts with a longest run of frames, and a survey of a
store that holds it finds exactly those.

* `Record.logBytes`, `PlacedFrame.layout`: the bytes of a run of frames, and where they lie.
* `Recoverable`: the records of the longest run of frames with which a byte string starts.
* `Frame.survey_eq`: what a survey finds.
-/

namespace Dataflow

namespace Record

/-- The frames of some records, one after another. -/
def logBytes (rs : List Record) : Bytes := rs.flatMap frame

@[simp] theorem logBytes_nil : logBytes [] = [] := rfl

@[simp] theorem logBytes_cons (r : Record) (rs : List Record) :
    logBytes (r :: rs) = r.frame ++ logBytes rs := rfl

@[simp] theorem logBytes_append (rs rs' : List Record) :
    logBytes (rs ++ rs') = logBytes rs ++ logBytes rs' := List.flatMap_append

theorem logBytes_of_isPrefix {rs rs' : List Record} (h : rs <+: rs') : logBytes rs <+: logBytes rs' := by
  obtain ⟨rest, rfl⟩ := h
  exact ⟨logBytes rest, (logBytes_append rs rest).symm⟩

end Record

namespace PlacedFrame

/-- The frames of some records, one after another, from an offset on. -/
def layout : (offset : Nat) → List Record → List PlacedFrame
  | _, [] => []
  | offset, r :: rs => ⟨offset, r.asFrame⟩ :: layout (offset + r.frame.length) rs

@[simp] theorem length_layout (offset : Nat) (rs : List Record) :
    (layout offset rs).length = rs.length := by
  induction rs generalizing offset with
  | nil => rfl
  | cons r rs ih => simp [layout, ih]

theorem layout_append (offset : Nat) (rs rs' : List Record) :
    layout offset (rs ++ rs') =
      layout offset rs ++ layout (offset + (Record.logBytes rs).length) rs' := by
  induction rs generalizing offset with
  | nil => rfl
  | cons r rs ih => simp [layout, ih, Nat.add_assoc]

theorem layout_concat (rs : List Record) (r : Record) :
    layout 0 (rs ++ [r]) = layout 0 rs ++ [⟨(Record.logBytes rs).length, r.asFrame⟩] := by
  rw [layout_append, Nat.zero_add]
  rfl

end PlacedFrame

/-- The bytes do not start with a frame. -/
def NoFrame (bytes : Bytes) : Prop := ∀ r : Record, r.Fits → ¬ r.frame <+: bytes

theorem noFrame_of_short {bytes : Bytes} (h : bytes.length ≤ headerLength) :
    NoFrame bytes := by
  intro r _ hprefix
  have hlen := r.length_frame_pos
  have hle := hprefix.length_le
  omega

theorem noFrame_nil : NoFrame [] := noFrame_of_short (Nat.zero_le _)

/-- The records of the longest run of frames with which a byte string starts. -/
structure Recoverable (image : Bytes) (rs : List Record) : Prop where
  fits : ∀ r ∈ rs, r.Fits
  run : ∃ rest, image = Record.logBytes rs ++ rest ∧ NoFrame rest

theorem recoverable_logBytes {rs : List Record} (hfits : ∀ r ∈ rs, r.Fits) :
    Recoverable (Record.logBytes rs) rs :=
  ⟨hfits, [], (List.append_nil _).symm, noFrame_nil⟩

/-- Every byte string starts with a longest run of frames, which may be empty. -/
theorem exists_recoverable (image : Bytes) : ∃ rs, Recoverable image rs := by
  induction hn : image.length using Nat.strongRecOn generalizing image with
  | ind n ih =>
    by_cases hframe : NoFrame image
    · exact ⟨[], by simp, image, rfl, hframe⟩
    · simp only [NoFrame, not_forall, not_not] at hframe
      obtain ⟨r, hr, rest, rfl⟩ := hframe
      have hlen := r.length_frame_pos
      rw [List.length_append] at hn
      obtain ⟨rs, hrs, tail, rfl, htail⟩ := ih rest.length (by omega) rest rfl
      refine ⟨r :: rs, ?_, tail, by simp, htail⟩
      intro r' hr'
      rcases List.mem_cons.mp hr' with rfl | hr'
      · exact hr
      · exact hrs r' hr'

/-- What stops a survey behind the last frame: nothing at the end of the bytes, else damage. -/
def StopsAt (stop : Option (Nat × FrameFault)) (offset : Nat) (rest : Bytes) : Prop :=
  if rest = [] then stop = none else ∃ d, stop = some (offset, .damaged d)

theorem StopsAt.eq_none {stop : Option (Nat × FrameFault)} {offset : Nat}
    (h : StopsAt stop offset []) : stop = none := by
  simpa [StopsAt] using h

namespace Frame

variable {σ : Type} [Store σ] {Holds : σ → Bytes → Prop}

theorem surveyFrom_keeps {P : σ → Prop} (hP : Store.ReadsKeep P) {s s' : σ}
    {fuel offset limit : Nat} {found : Survey} (hs : P s)
    (h : surveyFrom fuel s offset limit = (found, s')) : P s' := by
  induction fuel generalizing s offset found with
  | zero =>
    cases h
    exact hs
  | succ fuel ih =>
    unfold surveyFrom at h
    split at h
    · cases h
      exact hs
    · split at h
      · rename_i hread
        cases h
        exact read_keeps hP hs hread
      · rename_i hread
        cases h
        exact ih (read_keeps hP hs hread) rfl

theorem surveyFrom_stop (readable : Store.Readable Holds) {s : σ} {done rest : Bytes}
    {fuel limit : Nat} (hs : Holds s (done ++ rest)) (hrest : NoFrame rest)
    (hlimit : limit = (done ++ rest).length) (hfuel : rest.length ≤ fuel) :
    ∃ s' stop, surveyFrom fuel s done.length limit = (⟨[], stop⟩, s') ∧
      Holds s' (done ++ rest) ∧ StopsAt stop done.length rest := by
  have hlen : limit = done.length + rest.length := by rw [hlimit, List.length_append]
  by_cases hempty : rest = []
  · subst hempty
    refine ⟨s, none, ?_, hs, by simp [StopsAt]⟩
    cases fuel with
    | zero => rfl
    | succ fuel => rw [surveyFrom, if_pos (by rw [hlen]; exact Nat.le_refl _)]
  · have hpos := List.length_pos_iff.mpr hempty
    have hdrop : (done ++ rest).drop done.length = rest := List.drop_left
    obtain ⟨d, s', hread, hs'⟩ := read_damaged readable hs (Nat.le_of_eq hlimit)
      (hdrop.symm ▸ hrest)
    refine ⟨s', some (done.length, .damaged d), ?_, hs', by simp [StopsAt, hempty]⟩
    obtain ⟨fuel, rfl⟩ : ∃ n, fuel = n + 1 := ⟨fuel - 1, by omega⟩
    rw [surveyFrom, if_neg (by omega), hread]

/-- A survey from the front of a run of frames finds all of them and stops behind them. -/
theorem surveyFrom_eq (readable : Store.Readable Holds) {s : σ} {done rest : Bytes}
    {rs : List Record} {fuel limit : Nat}
    (hs : Holds s (done ++ (Record.logBytes rs ++ rest))) (hfits : ∀ r ∈ rs, r.Fits)
    (hrest : NoFrame rest) (hlimit : limit = (done ++ (Record.logBytes rs ++ rest)).length)
    (hfuel : (Record.logBytes rs ++ rest).length ≤ fuel) :
    ∃ s' stop, surveyFrom fuel s done.length limit =
        (⟨PlacedFrame.layout done.length rs, stop⟩, s') ∧
      Holds s' (done ++ (Record.logBytes rs ++ rest)) ∧
      StopsAt stop (done.length + (Record.logBytes rs).length) rest := by
  induction rs generalizing s done fuel with
  | nil =>
    exact surveyFrom_stop readable hs hrest hlimit hfuel
  | cons r rs ih =>
    have hpos := r.length_frame_pos
    rw [Record.logBytes_cons, List.append_assoc] at hs hlimit hfuel ⊢
    have hlen : limit = done.length + (r.frame.length + (Record.logBytes rs ++ rest).length) := by
      rw [hlimit, List.length_append, List.length_append]
    rw [List.length_append] at hfuel
    have hat : r.frame <+: (done ++ (r.frame ++ (Record.logBytes rs ++ rest))).drop
        done.length := by
      rw [List.drop_left]
      exact List.prefix_append _ _
    obtain ⟨s₁, hread, hs₁⟩ : ∃ s₁, read s done.length limit = (.ok r.asFrame, s₁) ∧
        Holds s₁ (done ++ (r.frame ++ (Record.logBytes rs ++ rest))) :=
      read_at readable hs (hfits r List.mem_cons_self) hat (by omega)
    rw [← List.append_assoc] at hs₁ hlimit ⊢
    obtain ⟨fuel, rfl⟩ : ∃ n, fuel = n + 1 := ⟨fuel - 1, by omega⟩
    have hfuel' : (Record.logBytes rs ++ rest).length ≤ fuel := by omega
    obtain ⟨s', stop, hsurvey, hs', hstop⟩ := ih hs₁
      (fun r' hr' => hfits r' (List.mem_cons_of_mem _ hr')) hlimit hfuel'
    rw [List.length_append] at hsurvey hstop
    refine ⟨s', stop, ?_, hs', ?_⟩
    · have hend : (⟨done.length, r.asFrame⟩ : PlacedFrame).endOffset =
          done.length + r.frame.length := by
        rw [PlacedFrame.endOffset, Record.asFrame, r.frameLength_header]
      rw [surveyFrom, if_neg (by omega), hread]
      dsimp only
      rw [hend, hsurvey]
      rfl
    · rw [List.length_append, ← Nat.add_assoc]
      exact hstop

/-- A survey finds the longest run of frames with which the stored bytes start. -/
theorem survey_eq (readable : Store.Readable Holds) {s : σ} {rest : Bytes} {rs : List Record}
    (hs : Holds s (Record.logBytes rs ++ rest)) (hfits : ∀ r ∈ rs, r.Fits)
    (hrest : NoFrame rest) :
    ∃ s' stop, survey s = (⟨PlacedFrame.layout 0 rs, stop⟩, s') ∧
      Holds s' (Record.logBytes rs ++ rest) ∧ StopsAt stop (Record.logBytes rs).length rest := by
  have hsize := readable.size_eq hs
  have hs₀ : Holds s ([] ++ (Record.logBytes rs ++ rest)) := hs
  obtain ⟨s', stop, hsurvey, hs', hstop⟩ := surveyFrom_eq readable hs₀ hfits hrest hsize
    (Nat.le_of_eq hsize.symm)
  rw [List.length_nil, Nat.zero_add] at hstop
  exact ⟨s', stop, hsurvey, hs', hstop⟩

/-- A store that holds nothing but frames is surveyed to its end. -/
theorem survey_logBytes (readable : Store.Readable Holds) {s : σ} {rs : List Record}
    (hs : Holds s (Record.logBytes rs)) (hfits : ∀ r ∈ rs, r.Fits) :
    ∃ s', survey s = (⟨PlacedFrame.layout 0 rs, none⟩, s') ∧ Holds s' (Record.logBytes rs) := by
  rw [← List.append_nil (Record.logBytes rs)] at hs
  obtain ⟨s', stop, hsurvey, hs', hstop⟩ := survey_eq readable hs hfits noFrame_nil
  rw [List.append_nil] at hs'
  exact ⟨s', hstop.eq_none ▸ hsurvey, hs'⟩

end Frame

end Dataflow

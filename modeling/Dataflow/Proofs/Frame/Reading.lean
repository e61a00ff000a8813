import Dataflow.Frame.Reading
import Dataflow.Proofs.Frame.Codec
import Dataflow.Proofs.Store.Laws

/-!
# Frames in a store

What reading a frame answers, in terms of the byte string that a store holds.

* `Frame.read_ok`: what is read is a frame that stands at the offset and ends before the limit.
* `Frame.read_at`: a frame that stands there is read, if the store can be read.
* `Frame.read_damaged`: if none stands there, the answer is damage and not a failure of the store.
-/

namespace Dataflow.Frame

variable {σ : Type} [Store σ] {Holds : σ → Bytes → Prop}

theorem headerAt_keeps {P : σ → Prop} (hP : Store.ReadsKeep P) {s s' : σ} {offset limit : Nat}
    {result : Except FrameFault Header} (hs : P s)
    (h : headerAt s offset limit = (result, s')) : P s' := by
  unfold headerAt at h
  dsimp only at h
  split at h
  · cases h
    exact hs
  · split at h
    all_goals
      rename_i hread
      cases h
      exact hP hs hread

theorem read_keeps {P : σ → Prop} (hP : Store.ReadsKeep P) {s s' : σ} {offset limit : Nat}
    {result : Except FrameFault Frame} (hs : P s)
    (h : read s offset limit = (result, s')) : P s' := by
  unfold read at h
  split at h
  · rename_i hheader
    cases h
    exact headerAt_keeps hP hs hheader
  · rename_i hheader
    have hs₁ := headerAt_keeps hP hs hheader
    dsimp only at h
    split at h
    · cases h
      exact hs₁
    · split at h
      all_goals
        rename_i hread
        cases h
        exact hP hs₁ hread

theorem headerAt_ok (laws : Store.ReadLaws Holds) {s s' : σ} {b : Bytes} {offset limit : Nat}
    {header : Header} (hs : Holds s b) (h : headerAt s offset limit = (.ok header, s')) :
    Header.parse (b.slice offset headerLength) = .ok header := by
  unfold headerAt at h
  dsimp only at h
  split at h
  · cases h
  · split at h
    · cases h
    · rename_i bytes _ hread
      obtain ⟨-, rfl⟩ := laws.readAt_ok hs hread
      rw [Prod.mk.injEq] at h
      cases hparse : Header.parse (b.slice offset headerLength) with
      | error e =>
        rw [hparse] at h
        cases h.1
      | ok header' =>
        rw [hparse] at h
        cases h.1
        rfl

/-- A frame that is read stands in the store: it is the frame of the record in it. -/
theorem read_ok (laws : Store.ReadLaws Holds) {s s' : σ} {b : Bytes} {offset limit : Nat} {f : Frame}
    (hs : Holds s b) (h : read s offset limit = (.ok f, s')) :
    f.record.Fits ∧ f = f.record.asFrame ∧ f.record.frame <+: b.drop offset ∧
      offset + f.record.frame.length ≤ limit := by
  unfold read at h
  split at h
  · cases h
  · rename_i header s₁ hheader
    have hs₁ := headerAt_keeps (laws.readAt_keeps b) hs hheader
    have hparse := headerAt_ok laws hs hheader
    dsimp only at h
    split at h
    · cases h
    · rename_i havailable
      split at h
      · cases h
      · rename_i bytes _ hread
        obtain ⟨hrange, rfl⟩ := laws.readAt_ok hs₁ hread
        rw [Prod.mk.injEq] at h
        have hlen : (b.slice offset header.frameLength).length = header.frameLength :=
          Bytes.length_slice hrange
        have hpos : headerLength < header.frameLength := by
          rw [Header.frameLength, frameLength, trailerLength]
          omega
        have htake : (b.slice offset header.frameLength).take headerLength =
            b.slice offset headerLength := by
          rw [Bytes.slice, List.take_take, Nat.min_eq_left (Nat.le_of_lt hpos)]
          rfl
        cases hverify : verify header (b.slice offset header.frameLength) with
        | error e =>
          rw [hverify] at h
          cases h.1
        | ok f' =>
          rw [hverify] at h
          cases h.1
          obtain ⟨hfits, hf, hbytes⟩ :=
            eq_asFrame_of_verify (htake.symm ▸ hparse) hlen hverify
          refine ⟨hfits, hf, ?_, ?_⟩
          · rw [hbytes]
            exact List.take_prefix _ _
          · rw [hbytes, hlen]
            omega

/-- A frame that stands in the store is read, if the limit leaves room for it. -/
theorem read_at (readable : Store.Readable Holds) {s : σ} {b : Bytes} {offset limit : Nat}
    {r : Record} (hs : Holds s b) (hfits : r.Fits) (hat : r.frame <+: b.drop offset)
    (hlimit : offset + r.frame.length ≤ limit) :
    ∃ s', read s offset limit = (.ok r.asFrame, s') ∧ Holds s' b := by
  obtain ⟨rest, hrest⟩ := hat
  have hpos := r.length_frame_pos
  have hrange : offset + r.frame.length ≤ b.length := by
    have hlen := congrArg List.length hrest
    rw [List.length_append, List.length_drop] at hlen
    omega
  have hslice : b.slice offset r.frame.length = r.frame := by
    rw [Bytes.slice, ← hrest, List.take_left]
  have hhead : b.slice offset headerLength = r.headerBytes := by
    rw [Bytes.slice, ← hrest, ← r.length_headerBytes, Record.frame, Record.body,
      List.append_assoc, List.append_assoc, List.append_assoc, List.take_left]
  obtain ⟨s₁, hread₁, hs₁⟩ := readable.readAt_eq hs offset headerLength (by omega)
  have hheader : headerAt s offset limit = (.ok r.header, s₁) := by
    unfold headerAt
    rw [hread₁, hhead]
    dsimp only
    rw [if_neg (by omega), Header.parse_headerBytes hfits]
    rfl
  obtain ⟨s₂, hread₂, hs₂⟩ := readable.readAt_eq hs₁ offset _ hrange
  refine ⟨s₂, ?_, hs₂⟩
  unfold read
  rw [hheader]
  dsimp only
  rw [if_neg (by rw [r.frameLength_header]; omega), r.frameLength_header, hread₂, hslice]
  dsimp only
  rw [verify_frame]
  rfl

theorem damaged_of_headerAt_error (readable : Store.Readable Holds) {s s' : σ} {b : Bytes}
    {offset limit : Nat} {e : FrameFault} (hs : Holds s b) (hlimit : limit ≤ b.length)
    (h : headerAt s offset limit = (.error e, s')) : ∃ d, e = .damaged d := by
  unfold headerAt at h
  dsimp only at h
  split at h
  · cases h
    exact ⟨_, rfl⟩
  · rename_i havailable
    obtain ⟨s₁, hread, -⟩ := readable.readAt_eq hs offset headerLength
      (by rw [headerLength] at *; omega)
    rw [hread] at h
    dsimp only at h
    cases hparse : Header.parse (b.slice offset headerLength) with
    | error d =>
      rw [hparse] at h
      cases h
      exact ⟨d, rfl⟩
    | ok header =>
      rw [hparse] at h
      cases h

theorem damaged_of_read_error (readable : Store.Readable Holds) {s s' : σ} {b : Bytes}
    {offset limit : Nat} {e : FrameFault} (hs : Holds s b) (hlimit : limit ≤ b.length)
    (h : read s offset limit = (.error e, s')) : ∃ d, e = .damaged d := by
  unfold read at h
  split at h
  · rename_i hheader
    cases h
    exact damaged_of_headerAt_error readable hs hlimit hheader
  · rename_i header s₁ hheader
    have hs₁ := headerAt_keeps (readable.readAt_keeps b) hs hheader
    dsimp only at h
    split at h
    · cases h
      exact ⟨_, rfl⟩
    · rename_i havailable
      have hpos : headerLength < header.frameLength := by
        rw [Header.frameLength, frameLength, trailerLength]
        omega
      obtain ⟨s₂, hread, -⟩ := readable.readAt_eq hs₁ offset header.frameLength (by omega)
      rw [hread] at h
      dsimp only at h
      cases hverify : verify header (b.slice offset header.frameLength) with
      | error d =>
        rw [hverify] at h
        cases h
        exact ⟨d, rfl⟩
      | ok f =>
        rw [hverify] at h
        cases h

/-- Where no frame stands, a store that can be read gives damage. -/
theorem read_damaged (readable : Store.Readable Holds) {s : σ} {b : Bytes} {offset limit : Nat}
    (hs : Holds s b) (hlimit : limit ≤ b.length)
    (hnone : ∀ r : Record, r.Fits → ¬ r.frame <+: b.drop offset) :
    ∃ d s', read s offset limit = (.error (.damaged d), s') ∧ Holds s' b := by
  rcases hread : read s offset limit with ⟨result, s'⟩
  have hs' := read_keeps (readable.readAt_keeps b) hs hread
  cases result with
  | ok f =>
    obtain ⟨hfits, -, hat, -⟩ := read_ok readable.toReadLaws hs hread
    exact absurd hat (hnone _ hfits)
  | error e =>
    obtain ⟨d, rfl⟩ := damaged_of_read_error readable hs hlimit hread
    exact ⟨d, s', rfl, hs'⟩

end Dataflow.Frame

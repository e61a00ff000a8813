import Mathlib.Data.List.Induction
import Dataflow.Proofs.Frame.LongestRun
import Dataflow.Proofs.Log.Soundness
import Dataflow.Proofs.Store.Flaky

/-!
# Recovery

A log is opened over any bytes, on a store of which any call may fail. Either every call succeeds;
then the log keeps the longest run of frames with which the bytes start, and nothing else. Or a call
fails; then the log is not opened, and all bytes stay where they are. A failure of the store is never
taken for damage of the bytes.

* `Frame.Unreadable`: the store has failed, as opposed to its bytes being damaged.
* `Frame.surveyFrom_recoverable`, `Frame.surveyFrom_failed`: what a survey finds if it is not
  stopped by the store, and when it is.
* `Log.Recovered`, `Log.Salvaged`: an opened log and the records that it has kept.
* `Log.open_recovers`: the two ways in which an opening ends.
-/

namespace Dataflow

/-! ## Reading a frame -/

namespace Frame

variable {σ : Type} [Store σ] {Holds : σ → Bytes → Prop}

/-- The answer says that the store could not be read. -/
def Unreadable {α : Type} (result : Except FrameFault α) : Prop :=
  ∃ e, result = .error (.unreadable e)

theorem meansDamage_of_readable {α : Type} {e : FrameFault}
    (h : ¬ Unreadable (.error e : Except FrameFault α)) : e.meansDamage = true := by
  cases e with
  | damaged d => rfl
  | tooLarge length => rfl
  | unreadable e => exact absurd ⟨e, rfl⟩ h

/-- A frame that stands in the store is read, unless the store fails. -/
theorem read_standing (laws : Store.ReadLaws Holds) {s s' : σ} {b : Bytes} {offset limit : Nat}
    {r : Record} {result : Except FrameFault Frame} (hs : Holds s b) (hfits : r.Fits)
    (hat : r.frame <+: b.drop offset) (hlimit : offset + r.frame.length ≤ limit)
    (h : read s offset limit = (result, s')) (hreadable : ¬ Unreadable result) :
    result = .ok r.asFrame := by
  have hpos := r.length_frame_pos
  obtain ⟨rest, hrest⟩ := hat
  have hslice : b.slice offset r.frame.length = r.frame := by
    rw [Bytes.slice, ← hrest, List.take_left]
  have hhead : b.slice offset headerLength = r.headerBytes := by
    have htake := List.prefix_iff_eq_take.mp (r.headerBytes_prefix.trans ⟨rest, rfl⟩)
    rw [Bytes.slice, ← hrest, htake, r.length_headerBytes]
  unfold read headerAt at h
  dsimp only at h
  rw [if_neg (by omega)] at h
  rcases hread : Store.readAt s offset headerLength with ⟨_ | head, s₁⟩
  · rw [hread] at h
    cases h
    exact absurd ⟨_, rfl⟩ hreadable
  · obtain ⟨-, rfl⟩ := laws.readAt_ok hs hread
    have hs₁ := laws.readAt_keeps b hs hread
    rw [hread, hhead] at h
    dsimp only at h
    rw [Header.parse_headerBytes hfits] at h
    dsimp only [Except.mapError] at h
    rw [r.frameLength_header, if_neg (by omega)] at h
    rcases hread' : Store.readAt s₁ offset r.frame.length with ⟨_ | bytes, s₂⟩
    · rw [hread'] at h
      cases h
      exact absurd ⟨_, rfl⟩ hreadable
    · obtain ⟨-, rfl⟩ := laws.readAt_ok hs₁ hread'
      rw [hread', hslice] at h
      dsimp only at h
      rw [verify_frame] at h
      cases h
      rfl

/-- Where anything else is read, no frame stands. -/
theorem noFrame_of_read (laws : Store.ReadLaws Holds) {s s' : σ} {b : Bytes} {offset : Nat}
    {e : FrameFault} (hs : Holds s b) (hoffset : offset ≤ b.length)
    (h : read s offset b.length = (.error e, s'))
    (hreadable : ¬ Unreadable (.error e : Except FrameFault Frame)) : NoFrame (b.drop offset) := by
  intro r hr hat
  have hle := hat.length_le
  rw [List.length_drop] at hle
  cases read_standing laws hs hr hat (by omega) h hreadable

/-! ## Surveys -/

/-- A survey was stopped by the store. -/
def StoppedByStore (found : Survey) : Prop := ∃ offset e, found.stop = some (offset, .unreadable e)

/-- What stops a survey that the store lets go on: the end of the bytes, or damage. -/
inductive Stopped : Option (Nat × FrameFault) → (offset : Nat) → (rest : Bytes) → Prop
  | atEnd (offset : Nat) : Stopped none offset []
  | atDamage (offset : Nat) (e : FrameFault) (rest : Bytes) (hdamage : e.meansDamage = true) :
    Stopped (some (offset, e)) offset rest

/-- A survey that the store does not stop finds a run of frames behind which no frame follows. -/
theorem surveyFrom_recoverable (laws : Store.ReadLaws Holds) {s s' : σ} {done rest : Bytes}
    {fuel limit : Nat} {found : Survey} (hs : Holds s (done ++ rest))
    (hlimit : limit = (done ++ rest).length) (hfuel : rest.length ≤ fuel)
    (h : surveyFrom fuel s done.length limit = (found, s')) (hstore : ¬ StoppedByStore found) :
    ∃ rs tail, rest = Record.logBytes rs ++ tail ∧ (∀ r ∈ rs, r.Fits) ∧ NoFrame tail ∧
      found.frames = PlacedFrame.layout done.length rs ∧
      Stopped found.stop (done.length + (Record.logBytes rs).length) tail := by
  have hend : limit = done.length + rest.length := by rw [hlimit, List.length_append]
  induction fuel generalizing s done rest found with
  | zero =>
    obtain rfl : rest = [] := List.length_eq_zero_iff.mp (Nat.le_zero.mp hfuel)
    cases h
    exact ⟨[], [], rfl, by simp, noFrame_nil, rfl, .atEnd _⟩
  | succ fuel ih =>
    unfold surveyFrom at h
    split at h
    · rename_i hpast
      obtain rfl : rest = [] := List.length_eq_zero_iff.mp (by omega)
      cases h
      exact ⟨[], [], rfl, by simp, noFrame_nil, rfl, .atEnd _⟩
    · split at h
      · rename_i e s₁ hread
        cases h
        have hreadable : ¬ Unreadable (.error e : Except FrameFault Frame) := by
          rintro ⟨e', he'⟩
          exact hstore ⟨_, e', by rw [Except.error.inj he']⟩
        rw [hlimit] at hread
        have hnone := noFrame_of_read laws hs (by simp) hread hreadable
        rw [List.drop_left] at hnone
        exact ⟨[], rest, rfl, by simp, hnone, rfl,
          .atDamage _ e rest (meansDamage_of_readable hreadable)⟩
      · rename_i f s₁ hread
        have hs₁ := read_keeps (laws.readAt_keeps _) hs hread
        obtain ⟨hfits, hf, hat, -⟩ := read_ok laws hs hread
        rw [List.drop_left] at hat
        generalize f.record = r at hf hat hfits
        subst hf
        obtain ⟨rest, rfl⟩ := hat
        have hpos := r.length_frame_pos
        have hnext : (⟨done.length, r.asFrame⟩ : PlacedFrame).endOffset =
            (done ++ r.frame).length := by
          rw [PlacedFrame.endOffset, Record.asFrame, r.frameLength_header, List.length_append]
        rw [List.length_append] at hfuel hend
        rw [← List.append_assoc] at hs₁ hlimit
        dsimp only at h
        rw [hnext] at h
        rcases hsurvey : surveyFrom fuel s₁ (done ++ r.frame).length limit with ⟨found', s₂⟩
        rw [hsurvey] at h
        cases h
        obtain ⟨rs, tail, rfl, hrs, htail, hframes, hstop⟩ := ih hs₁ hlimit (by omega) hsurvey
          hstore (by rw [List.length_append]; omega)
        refine ⟨r :: rs, tail, by simp, List.forall_mem_cons.mpr ⟨hfits, hrs⟩, htail, ?_, ?_⟩
        · rw [List.length_append] at hframes
          rw [PlacedFrame.layout, ← hframes]
        · rw [List.length_append] at hstop
          rw [Record.logBytes_cons, List.length_append, ← Nat.add_assoc]
          exact hstop

section Flaky

variable {Inner : σ → Bytes → Prop} {s s' : FlakyStore σ} {image : Bytes}

theorem headerAt_failed (inner : Store.Readable Inner) {offset : Nat}
    {result : Except FrameFault Header} (hs : Inner s.inner image) (hclean : ¬ s.HasFailed)
    (h : headerAt s offset image.length = (result, s')) : s'.HasFailed ↔ Unreadable result := by
  unfold headerAt at h
  dsimp only at h
  split at h
  · cases h
    simp [hclean, Unreadable]
  · rename_i havailable
    rcases hread : Store.readAt s offset headerLength with ⟨answer, s₁⟩
    obtain ⟨-, hfailed⟩ := FlakyStore.readAt_leads inner hs hclean
      (by rw [headerLength] at *; omega) hread
    rw [hread] at h
    cases answer with
    | error e =>
      cases h
      simp [hfailed, Unreadable]
    | ok bytes =>
      cases h
      cases hparse : Header.parse bytes <;> simp [hfailed, Unreadable, Except.mapError]

theorem read_failed (inner : Store.Readable Inner) {offset : Nat}
    {result : Except FrameFault Frame} (hs : Inner s.inner image) (hclean : ¬ s.HasFailed)
    (h : read s offset image.length = (result, s')) : s'.HasFailed ↔ Unreadable result := by
  unfold read at h
  rcases hheader : headerAt s offset image.length with ⟨answer, s₁⟩
  have hfailed₁ := headerAt_failed inner hs hclean hheader
  have hs₁ : FlakyStore.Holds Inner s₁ image :=
    headerAt_keeps ((FlakyStore.readLaws inner.toReadLaws).readAt_keeps image) hs hheader
  rw [hheader] at h
  cases answer with
  | error e =>
    cases h
    rw [hfailed₁]
    simp [Unreadable]
  | ok header =>
    have hclean₁ : ¬ s₁.HasFailed := by simp [hfailed₁, Unreadable]
    dsimp only at h
    split at h
    · cases h
      simp [hclean₁, Unreadable]
    · rename_i havailable
      rcases hread : Store.readAt s₁ offset header.frameLength with ⟨answer, s₂⟩
      have hpos : headerLength < header.frameLength := by
        rw [Header.frameLength, frameLength, trailerLength]
        omega
      obtain ⟨-, hfailed⟩ := FlakyStore.readAt_leads inner hs₁ hclean₁ (by omega) hread
      rw [hread] at h
      cases answer with
      | error e =>
        cases h
        simp [hfailed, Unreadable]
      | ok bytes =>
        cases h
        cases hverify : verify header bytes <;>
          simp [hfailed, Unreadable, Except.mapError]

/-- A survey is stopped by the store if and only if one of the store's calls fails. -/
theorem surveyFrom_failed (inner : Store.Readable Inner) {fuel offset : Nat} {found : Survey}
    (hs : Inner s.inner image) (hclean : ¬ s.HasFailed)
    (h : surveyFrom fuel s offset image.length = (found, s')) :
    s'.HasFailed ↔ StoppedByStore found := by
  induction fuel generalizing s offset found with
  | zero =>
    cases h
    simp [hclean, StoppedByStore]
  | succ fuel ih =>
    unfold surveyFrom at h
    split at h
    · cases h
      simp [hclean, StoppedByStore]
    · rcases hread : read s offset image.length with ⟨answer, s₁⟩
      have hfailed := read_failed inner hs hclean hread
      rw [hread] at h
      cases answer with
      | error e =>
        cases h
        simp [hfailed, Unreadable, StoppedByStore]
      | ok f =>
        have hs₁ : FlakyStore.Holds Inner s₁ image :=
          read_keeps ((FlakyStore.readLaws inner.toReadLaws).readAt_keeps image) hs hread
        have hclean₁ : ¬ s₁.HasFailed := by simp [hfailed, Unreadable]
        dsimp only at h
        rcases hsurvey : surveyFrom fuel s₁ (PlacedFrame.mk offset f).endOffset image.length with
          ⟨found', s₂⟩
        rw [hsurvey] at h
        cases h
        have hstopped := ih hs₁ hclean₁ hsurvey
        exact hstopped

end Flaky

end Frame

/-! ## Opening -/

namespace Record

/-- The sequence number after all those of some records; the greatest number is followed by
itself. -/
def nextAfter (rs : List Record) : Nat :=
  match (rs.map (·.sequence.number)).max? with
  | none => 1
  | some last => min (last + 1) SequenceNumber.maxNumber

end Record

namespace Log

variable {σ : Type} {Holds : σ → Bytes → Prop}

theorem foldl_max_layout (rs : List Record) (offset : Nat) (last : SequenceNumber) :
    ((PlacedFrame.layout offset rs).foldl (fun last f => last.max f.frame.header.sequence)
      last).number = (rs.map (·.sequence.number)).foldl max last.number := by
  induction rs generalizing offset last with
  | nil => rfl
  | cons r rs ih => exact ih _ _

theorem next_lastSequence (rs : List Record) :
    (lastSequence (PlacedFrame.layout 0 rs)).next.number = Record.nextAfter rs := by
  have hlast : (lastSequence (PlacedFrame.layout 0 rs)).number =
      ((rs.map (·.sequence.number)).max?).getD 0 := by
    rw [lastSequence, foldl_max_layout, List.foldl_max]
    exact Nat.zero_max _
  rw [SequenceNumber.next, hlast, Record.nextAfter]
  cases (rs.map (·.sequence.number)).max? with
  | none => rfl
  | some last => rfl

variable [Store σ]

/-- An opened log has kept the longest run of frames with which the bytes of its store started. -/
structure Recovered (Holds : σ → Bytes → Prop) (image : Bytes) (rs : List Record) (log : Log σ) :
    Prop where
  longestRun : LongestRun image rs
  /-- What is left in the store. -/
  holds : Holds log.store (Record.logBytes rs)
  /-- The log is the one that replays the frames of these records. -/
  replays : log = ofFrames log.settings (PlacedFrame.layout 0 rs) log.bytesTruncated log.store
  stats : ∃ counts, log.stats = .ok counts ∧ counts.recordsReplayed = rs.length ∧
    counts.logBytes + counts.bytesTruncated = image.length ∧
    counts.nextSequence = Record.nextAfter rs

theorem recovered_ofFrames (laws : Store.ReadLaws Holds) {image : Bytes} {rs : List Record}
    (himage : Recoverable image rs) (settings : LogSettings) {s : σ}
    (hs : Holds s (Record.logBytes rs)) :
    Recovered Holds image rs (ofFrames settings (PlacedFrame.layout 0 rs)
      (image.length - (Record.logBytes rs).length) s) where
  longestRun := himage.longestRun
  holds := hs
  replays := rfl
  stats := by
    refine ⟨_, rfl, PlacedFrame.length_layout 0 rs, ?_, next_lastSequence rs⟩
    have hle := himage.longestRun.isPrefix.length_le
    dsimp only [ofFrames]
    rw [laws.size_eq hs]
    omega

/-- An opening that succeeds keeps the longest run of frames, whatever calls may have failed. -/
theorem open_recovered (laws : Store.Laws Holds) {settings : LogSettings} {s : σ} {image : Bytes}
    {log : Log σ} (hs : Holds s image) (h : Log.open settings s = .ok log) :
    ∃ rs, Recovered Holds image rs log := by
  unfold Log.open at h
  rw [laws.size_eq hs] at h
  split at h
  · cases h
  · rcases hsurvey : Frame.survey s with ⟨⟨frames, stop⟩, s₁⟩
    have hs₁ : Holds s₁ image := Frame.surveyFrom_keeps (laws.readAt_keeps image) hs hsurvey
    rw [hsurvey] at h
    have hstore : ¬ Frame.StoppedByStore ⟨frames, stop⟩ := by
      rintro ⟨offset, e, rfl : stop = _⟩
      cases h
    have hfrom : Frame.surveyFrom image.length s ([] : Bytes).length image.length =
        (⟨frames, stop⟩, s₁) := by
      rw [← laws.size_eq hs]
      exact hsurvey
    obtain ⟨rs, tail, rfl, hfits, htail, rfl, hstop⟩ := Frame.surveyFrom_recoverable
      laws.toReadLaws hs rfl (Nat.le_refl _) hfrom hstore
    rw [List.length_nil, Nat.zero_add] at hstop
    have himage : Recoverable (Record.logBytes rs ++ tail) rs := ⟨hfits, tail, rfl, htail⟩
    cases hstop with
    | atEnd =>
      cases h
      rw [List.append_nil] at hs₁
      have hrecovered := recovered_ofFrames laws.toReadLaws himage settings hs₁
      rw [List.append_nil, Nat.sub_self] at hrecovered
      exact ⟨rs, List.append_nil _ ▸ hrecovered⟩
    | atDamage _ e _ hdamage =>
      dsimp only at h
      rw [if_pos hdamage] at h
      split at h
      · cases h
      · rename_i s₂ htruncate
        cases h
        have hs₂ := laws.truncate_ok hs₁ htruncate
        rw [List.take_left] at hs₂
        exact ⟨rs, recovered_ofFrames laws.toReadLaws himage settings hs₂⟩

/-- An opening that is refused leaves all bytes where they are. -/
theorem open_refused (laws : Store.Laws Holds) {settings : LogSettings} {s s' : σ} {image : Bytes}
    {e : Error} (hs : Holds s image) (h : Log.open settings s = .error (e, s')) :
    Holds s' image := by
  unfold Log.open at h
  split at h
  · cases h
    exact hs
  · rcases hsurvey : Frame.survey s with ⟨⟨frames, stop⟩, s₁⟩
    have hs₁ : Holds s₁ image := Frame.surveyFrom_keeps (laws.readAt_keeps image) hs hsurvey
    rw [hsurvey] at h
    cases stop with
    | none => cases h
    | some stop =>
      dsimp only at h
      split at h
      · split at h
        · rename_i htruncate
          cases h
          exact laws.truncate_error hs₁ htruncate
        · cases h
      · cases h
        exact hs₁

/-- An opening is refused if and only if a call of the store fails. -/
theorem open_failed {Inner : σ → Bytes → Prop} (inner : Store.Reliable Inner)
    {settings : LogSettings} (hsettings : settings.validate = .ok ()) {s : FlakyStore σ}
    {image : Bytes} (hs : Inner s.inner image) (hclean : ¬ s.HasFailed) :
    match Log.open settings s with
    | .error (_, s') => s'.HasFailed
    | .ok log => ¬ log.store.HasFailed := by
  have hsize : Store.size s = image.length := inner.size_eq hs
  rcases hsurvey : Frame.survey s with ⟨⟨frames, stop⟩, s₁⟩
  have hs₁ : FlakyStore.Holds Inner s₁ image :=
    Frame.surveyFrom_keeps ((FlakyStore.readLaws inner.toReadLaws).readAt_keeps image) hs hsurvey
  have hfrom := hsurvey
  rw [Frame.survey, hsize] at hfrom
  have hfailed := Frame.surveyFrom_failed inner.toReadable hs hclean hfrom
  unfold Log.open
  rw [hsettings, hsurvey]
  cases stop with
  | none =>
    dsimp only [ofFrames]
    rw [hfailed]
    rintro ⟨offset, e, hstop⟩
    cases hstop
  | some stop =>
    obtain ⟨offset, e⟩ := stop
    dsimp only
    by_cases hdamage : e.meansDamage = true
    · have hclean₁ : ¬ s₁.HasFailed := by
        rw [hfailed]
        rintro ⟨offset', e', hstop⟩
        cases hstop
        cases hdamage
      rcases htruncate : Store.truncate s₁ offset with ⟨result, s₂⟩
      have hfailed₂ := FlakyStore.truncate_leads inner hs₁ hclean₁ htruncate
      rw [if_pos hdamage]
      cases result with
      | error e' => exact hfailed₂.mpr ⟨e', rfl⟩
      | ok _ =>
        dsimp only [ofFrames]
        rw [hfailed₂]
        rintro ⟨e', hresult⟩
        cases hresult
    · rw [if_neg hdamage]
      dsimp only
      rw [hfailed]
      cases e with
      | damaged d => exact absurd rfl hdamage
      | tooLarge length => exact absurd rfl hdamage
      | unreadable e' => exact ⟨offset, e', rfl⟩

/-- A log has kept all that could be kept of some bytes. -/
structure Salvaged (Inner : σ → Bytes → Prop) (image : Bytes) (rs : List Record)
    (log : Log (FlakyStore σ)) : Prop where
  recovered : Recovered (FlakyStore.Holds Inner) image rs log
  /-- What is left can be opened again; the same records are replayed and nothing more is cut off. -/
  reopens : ∀ settings, settings.validate = .ok () →
    ∃ log', Log.open settings log.store.inner = .ok log' ∧
      Recovered Inner (Record.logBytes rs) rs log' ∧ log'.bytesTruncated = 0
  /-- If the bytes are a log that was cut somewhere, its records before the cut are kept. -/
  cut : ∀ valid cut, (∀ r ∈ valid, r.Fits) → image = (Record.logBytes valid).take cut →
    EndBefore cut valid rs
  /-- If the bytes are a log with anything behind it, all its records are kept. -/
  appended : ∀ valid extra, (∀ r ∈ valid, r.Fits) → image = Record.logBytes valid ++ extra →
    valid <+: rs

/-- How an opening ends. If a call of the store has failed, all bytes are still there; if none has,
what can be kept of them is kept. -/
def Outcome (Inner : σ → Bytes → Prop) (image : Bytes) :
    Except (Error × FlakyStore σ) (Log (FlakyStore σ)) → Prop
  | .error (_, s) => s.HasFailed ∧ Inner s.inner image
  | .ok log => ¬ log.store.HasFailed ∧ ∃ rs, Salvaged Inner image rs log

/-- Every opening ends in one of the two ways, over whatever bytes, and whichever calls fail. -/
theorem open_recovers {Inner : σ → Bytes → Prop} (inner : Store.Reliable Inner)
    {s : FlakyStore σ} {image : Bytes} (hs : Inner s.inner image) (hfresh : s.calls = 0)
    {settings : LogSettings} (hsettings : settings.validate = .ok ()) :
    Outcome Inner image (Log.open settings s) := by
  have hclean : ¬ s.HasFailed := by
    rintro ⟨n, hn, -⟩
    omega
  have laws := FlakyStore.laws inner.toLaws
  have hfailed := open_failed inner hsettings hs hclean
  cases hopen : Log.open settings s with
  | error refused =>
    rw [hopen] at hfailed
    exact ⟨hfailed, open_refused laws hs hopen⟩
  | ok log =>
    rw [hopen] at hfailed
    obtain ⟨rs, hrecovered⟩ := open_recovered laws hs hopen
    have hrun := hrecovered.longestRun
    refine ⟨hfailed, rs, hrecovered, ?_, ?_, ?_⟩
    · intro settings' hsettings'
      obtain ⟨s', hreopen, hs'⟩ := open_eq inner hsettings' hrecovered.holds
        (recoverable_logBytes hrun.fits)
      refine ⟨_, hreopen, ?_, Nat.sub_self _⟩
      exact recovered_ofFrames inner.toReadLaws (recoverable_logBytes hrun.fits) settings' hs'
    · rintro valid cut hvalid rfl
      exact hrun.of_take hvalid
    · rintro valid extra hvalid rfl
      exact hrun.of_append hvalid

/-- Behind a record there is a torn one. The opening makes three calls: two that read the record, and
one that cuts off what is behind it. If the third fails the opening is refused; a fourth that would
fail is not made. -/
theorem open_recovers_torn :
    let r : Record := ⟨[1], [10], .persist, true, ⟨4⟩⟩
    let image : Bytes := r.frame ++ [7, 7]
    let s (n : Nat) : FlakyStore MemoryStore :=
      ⟨.ofBytes image, fun k => if k = n then some (.injected .truncate) else none, 0⟩
    (∀ n, (s n).inner.Holds image ∧ (s n).calls = 0) ∧ LogSettings.validate {} = .ok () ∧
      (∀ n, Outcome MemoryStore.Holds image (Log.open {} (s n))) ∧
      (Log.open {} (s 2)).isOk = false ∧
      (Log.open {} (s 3)).toOption.map (·.bytesTruncated) = some 2 := by
  intro r image s
  have hs (n : Nat) : (s n).inner.Holds image := Image.toBytes_ofBytes image
  have hsettings : LogSettings.validate {} = .ok () := rfl
  refine ⟨fun n => ⟨hs n, rfl⟩, hsettings, fun n => ?_, by decide +kernel, by decide +kernel⟩
  exact open_recovers MemoryStore.reliable (hs n) rfl hsettings

end Log

end Dataflow

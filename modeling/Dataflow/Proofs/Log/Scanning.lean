import Dataflow.Proofs.Frame.Exactness
import Dataflow.Proofs.Log.FailedWrites
import Dataflow.Proofs.Log.Recovery
import Dataflow.Proofs.Log.Replay

/-!
# Scanning a log

A scan reads the frames of the store one after another. If it reads them all, it knows the newest
record of the key, or that there is none. At the first frame that is damaged or cannot be read it
gives up, even if it has found records of the key before: the newest one might be behind.

Reads may fail at any call. All that is assumed of the store is that reads which succeed are true.

* `Frame.ReadsRun`: some records are read one after another. Nothing bounds their number but the
  bytes.
* `Frame.surveyFrom_ends`: a survey reads a run of records and stops at the end of the bytes or at
  the first frame that cannot be read.
* `Log.ScanEnds`: what a scan answers, and the store that it leaves behind.
* `Log.scan_exact`: every scan ends so, and changes nothing.
-/

namespace Dataflow

/-! ## Runs of reads -/

namespace Frame

variable {σ : Type} [Store σ] {Holds : σ → Bytes → Prop}

/-- The records are read one after another, from an offset on, and every read succeeds. -/
inductive ReadsRun (limit : Nat) : (s : σ) → (offset : Nat) → List Record → (s' : σ) → Prop
  | done (s : σ) (offset : Nat) : ReadsRun limit s offset [] s
  | next {s s₁ s' : σ} {offset : Nat} {r : Record} {rs : List Record}
      (hread : read s offset limit = (.ok r.asFrame, s₁))
      (hrest : ReadsRun limit s₁ (offset + r.frame.length) rs s') :
    ReadsRun limit s offset (r :: rs) s'

/-- Where a survey stops: at the end of the bytes, or where a frame cannot be read. -/
inductive Stops (limit : Nat) (s : σ) (offset : Nat) (rest : Bytes) :
    Option (Nat × FrameFault) → (s' : σ) → Prop
  | atEnd (hrest : rest = []) : Stops limit s offset rest none s
  | atFault {s' : σ} {e : FrameFault} (hrest : rest ≠ [])
      (hread : read s offset limit = (.error e, s')) :
    Stops limit s offset rest (some (offset, e)) s'

theorem surveyFrom_ends (laws : Store.ReadLaws Holds) {s : σ} {done rest : Bytes}
    {fuel limit : Nat} (hs : Holds s (done ++ rest)) (hlimit : limit = (done ++ rest).length)
    (hfuel : rest.length ≤ fuel) :
    ∃ rs tail s₁, rest = Record.logBytes rs ++ tail ∧ (∀ r ∈ rs, r.Fits) ∧
      (surveyFrom fuel s done.length limit).1.frames = PlacedFrame.layout done.length rs ∧
      ReadsRun limit s done.length rs s₁ ∧ Holds s₁ (done ++ rest) ∧
      Stops limit s₁ (done.length + (Record.logBytes rs).length) tail
        (surveyFrom fuel s done.length limit).1.stop (surveyFrom fuel s done.length limit).2 := by
  have hend : limit = done.length + rest.length := by rw [hlimit, List.length_append]
  induction fuel generalizing s done rest with
  | zero =>
    obtain rfl : rest = [] := List.length_eq_zero_iff.mp (Nat.le_zero.mp hfuel)
    exact ⟨[], [], s, rfl, by simp, rfl, .done _ _, hs, .atEnd rfl⟩
  | succ fuel ih =>
    by_cases hpast : limit ≤ done.length
    · obtain rfl : rest = [] := List.length_eq_zero_iff.mp (by omega)
      rw [surveyFrom, if_pos hpast]
      exact ⟨[], [], s, rfl, by simp, rfl, .done _ _, hs, .atEnd rfl⟩
    · have hne : rest ≠ [] := by
        rintro rfl
        rw [List.length_nil] at hend
        omega
      rcases hread : read s done.length limit with ⟨answer, s₁⟩
      rw [surveyFrom, if_neg hpast, hread]
      cases answer with
      | error e => exact ⟨[], rest, s, rfl, by simp, rfl, .done _ _, hs, .atFault hne hread⟩
      | ok f =>
        have hs₁ := read_keeps (laws.readAt_keeps _) hs hread
        obtain ⟨hfits, hf, hat, -⟩ := read_ok laws hs hread
        rw [List.drop_left] at hat
        generalize f.record = r at hf hat hfits
        subst hf
        obtain ⟨rest, rfl⟩ := hat
        have hpos := r.length_frame_pos
        have hnext : (⟨done.length, r.asFrame⟩ : PlacedFrame).endOffset =
            (done ++ r.frame).length := by
          rw [PlacedFrame.endOffset, Record.asFrame, r.frameLength_header, List.length_append]
        rw [List.length_append] at hfuel hend
        rw [← List.append_assoc] at hs₁ hlimit
        obtain ⟨rs, tail, s₂, rfl, hrs, hframes, hrun, hs₂, hstops⟩ :=
          ih hs₁ hlimit (by omega) (by rw [List.length_append]; omega)
        dsimp only
        rw [hnext]
        rw [List.length_append] at hframes hrun hstops ⊢
        refine ⟨r :: rs, tail, s₂, by simp, List.forall_mem_cons.mpr ⟨hfits, hrs⟩, ?_,
          .next hread hrun, by rwa [← List.append_assoc], ?_⟩
        · rw [hframes]
          rfl
        · rw [Record.logBytes_cons, List.length_append, ← Nat.add_assoc]
          exact hstops

theorem ReadsRun.holds (laws : Store.ReadLaws Holds) {s s' : σ} {b : Bytes} {offset limit : Nat}
    {rs : List Record} (h : ReadsRun limit s offset rs s') (hs : Holds s b) : Holds s' b := by
  induction h with
  | done s offset => exact hs
  | next hread hrest ih => exact ih (read_keeps (laws.readAt_keeps b) hs hread)

/-- Memory for a frame never lacks. -/
theorem read_ne_tooLarge {s s' : σ} {offset limit length : Nat} :
    read s offset limit ≠ (.error (.tooLarge length), s') := by
  intro h
  unfold read headerAt at h
  dsimp only at h
  split at h
  · rename_i hheader
    cases h
    split at hheader
    · cases hheader
    · split at hheader
      · cases hheader
      · rename_i bytes _ _
        cases hparse : Header.parse bytes <;> rw [hparse] at hheader <;> cases hheader
  · rename_i header _ _
    split at h
    · cases h
    · split at h
      · cases h
      · rename_i bytes _ _
        cases hverify : verify header bytes <;> rw [hverify] at h <;> cases h

end Frame

/-! ## Scans -/

theorem NewestAt.eq_none_iff {rs : List Record} {key : Bytes} {found : Option Extent}
    (h : NewestAt rs key found) : found = none ↔ ∀ r ∈ rs, r.key ≠ key := by
  cases h with
  | missing hmissing => exact ⟨fun _ => hmissing, fun _ => rfl⟩
  | placed before r after hnewest =>
    refine ⟨fun h => (nomatch h), fun h => absurd hnewest.key_eq (h r ?_)⟩
    rw [hnewest.split]
    exact List.mem_append_right _ List.mem_cons_self

namespace Log

open Dataflow.Frame

variable {σ : Type} [Store σ] {Holds : σ → Bytes → Prop}

/-- How a scan of a store that holds some bytes ends. -/
inductive ScanEnds (b : Bytes) (key : Bytes) (s : σ) : Except Error (Option Extent) → (s' : σ) → Prop
  /-- The bytes are frames, and all of them were read. The answer is the place of the newest record
  of the key. -/
  | whole {s' : σ} {rs : List Record} {found : Option Extent} (hbytes : b = Record.logBytes rs)
      (hfits : ∀ r ∈ rs, r.Fits) (hrun : ReadsRun b.length s 0 rs s')
      (hnewest : NewestAt rs key found) (hnone : found = none ↔ ∀ r ∈ rs, r.key ≠ key) :
    ScanEnds b key s (.ok found) s'
  /-- Behind the records that were read there are bytes that do not start with a frame. -/
  | damaged {s₁ s' : σ} {rs : List Record} {rest : Bytes} {d : Damage}
      (hbytes : b = Record.logBytes rs ++ rest) (hfits : ∀ r ∈ rs, r.Fits) (hrest : rest ≠ [])
      (hnone : NoFrame rest) (hrun : ReadsRun b.length s 0 rs s₁)
      (hread : read s₁ (Record.logBytes rs).length b.length = (.error (.damaged d), s')) :
    ScanEnds b key s (.error (.corrupt (Record.logBytes rs).length d)) s'
  /-- Behind the records that were read there are bytes that the store fails to read. -/
  | unreadable {s₁ s' : σ} {rs : List Record} {rest : Bytes} {e : IoError}
      (hbytes : b = Record.logBytes rs ++ rest) (hfits : ∀ r ∈ rs, r.Fits) (hrest : rest ≠ [])
      (hrun : ReadsRun b.length s 0 rs s₁)
      (hread : read s₁ (Record.logBytes rs).length b.length = (.error (.unreadable e), s')) :
    ScanEnds b key s (.error (.io (.readRecord (Record.logBytes rs).length) e)) s'

theorem scan_ends (laws : Store.ReadLaws Holds) {log : Log σ} {b : Bytes} (hs : Holds log.store b)
    (key : Bytes) : ScanEnds b key log.store (log.scan key).1 (log.scan key).2.store := by
  have hsize := laws.size_eq hs
  have hs₀ : Holds log.store ([] ++ b) := hs
  obtain ⟨rs, tail, s₁, rfl, hfits, hframes, hrun, hs₁, hstops⟩ :=
    surveyFrom_ends laws hs₀ rfl (Nat.le_refl _)
  rw [List.length_nil, List.nil_append] at hframes hrun hstops
  rw [List.nil_append] at hs₁
  rw [Nat.zero_add] at hstops
  unfold scan Frame.survey
  rw [hsize]
  rcases hsurvey : surveyFrom (Record.logBytes rs ++ tail).length log.store 0
    (Record.logBytes rs ++ tail).length with ⟨⟨frames, stop⟩, s'⟩
  rw [hsurvey] at hframes hstops
  obtain rfl : frames = PlacedFrame.layout 0 rs := hframes
  cases hstops with
  | atEnd htail =>
    have hnewest := newestAt_layout rs key
    exact .whole (by rw [htail, List.append_nil]) hfits hrun hnewest hnewest.eq_none_iff
  | @atFault _ e htail hread =>
    cases e with
    | damaged d =>
      have hreadable : ¬Unreadable (.error (.damaged d) : Except FrameFault Frame) := by
        rintro ⟨e, he⟩
        cases he
      have hnone := noFrame_of_read laws hs₁ (by simp) hread hreadable
      rw [List.drop_left] at hnone
      exact .damaged rfl hfits htail hnone hrun hread
    | tooLarge length => exact absurd hread read_ne_tooLarge
    | unreadable e => exact .unreadable rfl hfits htail hrun hread

/-- Where every read succeeds, bytes that are no run of frames are damaged behind their longest run. -/
theorem ScanEnds.corrupt (readable : Store.Readable Holds) {s s' : σ} {b key : Bytes}
    {answer : Except Error (Option Extent)} (h : ScanEnds b key s answer s') (hs : Holds s b)
    (hdamaged : ¬∃ rs, (∀ r ∈ rs, r.Fits) ∧ b = Record.logBytes rs) :
    ∃ rs d, LongestRun b rs ∧ answer = .error (.corrupt (Record.logBytes rs).length d) ∧
      Frame.Answer b (Record.logBytes rs).length b.length (.error (.damaged d)) := by
  cases h with
  | whole hbytes hfits => exact absurd ⟨_, hfits, hbytes⟩ hdamaged
  | @damaged s₁ _ rs rest d hbytes hfits hrest hnone hrun hread =>
    have hanswer : Frame.Answer b (Record.logBytes rs).length b.length
        (Frame.read s₁ (Record.logBytes rs).length b.length).1 :=
      answer_read readable (hrun.holds readable.toReadLaws hs) (Nat.le_refl b.length)
    rw [hread] at hanswer
    exact ⟨rs, d, (Recoverable.mk hfits ⟨rest, hbytes, hnone⟩).longestRun, rfl, hanswer⟩
  | @unreadable s₁ _ rs rest e hbytes hfits hrest hrun hread =>
    obtain ⟨d, hd⟩ := damaged_of_read_error readable (hrun.holds readable.toReadLaws hs)
      (Nat.le_refl b.length) hread
    cases hd

/-- A scan answers with the place of the newest record if all frames of the store are read, and with
the first frame that is not. It changes nothing of the log, and of the store what reads change. If
every read succeeds, it finds the newest record among frames, and the damage in any other bytes. -/
theorem scan_exact (laws : Store.ReadLaws Holds) {log : Log σ} {b : Bytes} (hs : Holds log.store b)
    (key : Bytes) :
    ScanEnds b key log.store (log.scan key).1 (log.scan key).2.store ∧
    (log.scan key).2 = { log with store := (log.scan key).2.store } ∧
    (∀ P, Store.ReadsKeep P → P log.store → P (log.scan key).2.store) ∧
    (Store.Readable Holds →
      (∀ rs, (∀ r ∈ rs, r.Fits) → b = Record.logBytes rs →
        ∃ found, (log.scan key).1 = .ok found ∧ NewestAt rs key found) ∧
      ((¬∃ rs, (∀ r ∈ rs, r.Fits) ∧ b = Record.logBytes rs) →
        ∃ rs d, LongestRun b rs ∧
          (log.scan key).1 = .error (.corrupt (Record.logBytes rs).length d) ∧
          Frame.Answer b (Record.logBytes rs).length b.length (.error (.damaged d)))) := by
  have hends := scan_ends laws hs key
  refine ⟨hends, ?_, ?_, ?_⟩
  · obtain ⟨s', hlog⟩ := log.scan_eq key
    rw [hlog]
  · intro P hP
    exact (scan_undisturbed hP log key).store
  · intro readable
    refine ⟨?_, hends.corrupt readable hs⟩
    rintro rs hfits rfl
    obtain ⟨s', hsurvey, -⟩ := survey_logBytes readable hs hfits
    refine ⟨newest? key (PlacedFrame.layout 0 rs), ?_, newestAt_layout rs key⟩
    rw [scan, hsurvey]

/-- A record of the key was read when the store fails at the record behind it. -/
theorem scan_exact_unreadable :
    let r : Record := ⟨[1], [10], .persist, true, ⟨4⟩⟩
    let r' : Record := ⟨[1], [11], .persist, true, ⟨9⟩⟩
    let b := Record.logBytes [r, r']
    let failure (n : Nat) : Option IoError := if n = 2 then some (.injected .read) else none
    let log : Log (FlakyStore MemoryStore) := ofFrames {} [] 0 ⟨.ofBytes b, failure, 0⟩
    FlakyStore.Holds MemoryStore.Holds log.store b ∧
      ScanEnds b [1] log.store (log.scan [1]).1 (log.scan [1]).2.store ∧
      (log.scan [1]).1 = .error (.io (.readRecord r.frame.length) (.injected .read)) ∧
      (log.scan [1]).2.store.inner = log.store.inner := by
  intro r r' b failure log
  have hs : FlakyStore.Holds MemoryStore.Holds log.store b := rfl
  have laws := FlakyStore.readLaws MemoryStore.reliable.toReadLaws
  obtain ⟨hends, -, hkept, -⟩ := scan_exact laws hs [1]
  refine ⟨hs, hends, by decide +kernel, ?_⟩
  refine hkept (fun s => s.inner = log.store.inner) ?_ rfl
  intro s s' offset length result hinner hread
  rcases FlakyStore.readAt_cases hread with ⟨e, -, -, rfl⟩ | ⟨inner, -, hmemory, rfl⟩
  · exact hinner
  · exact MemoryStore.readsKeep_eq _ hinner hmemory

end Log

end Dataflow

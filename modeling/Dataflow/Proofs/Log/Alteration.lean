import Dataflow.Proofs.Checksum.Crc32
import Dataflow.Proofs.Frame.Exactness
import Dataflow.Proofs.Log.Recovery

/-!
# Altered records are noticed

Some bytes of a stored record change: at least one, and all of them within four consecutive bytes
behind its two lengths. The lengths still tell where the frame ends, so what is read there is as
long as before, and the checksum tells it from every frame. The window may reach from the body into
the trailer, where the stored checksum changes along with the computed one.

* `Burst`: the alteration.
* `Burst.noFrame`: no frame stands where it happened.
* `Frame.read_altered`: reading the record answers that its flags or its checksum are wrong.
* `alteration_noticed`: what that means for opening a log and for looking up its keys.
-/

namespace Dataflow

/-! ## Alterations -/

/-- The bytes in which a header tells the lengths of the key and the value. -/
def lengthFields : Nat := 8

/-- How many consecutive bytes an alteration may touch. -/
def burstLength : Nat := 4

/-- Some bytes with a change to them, behind the two lengths and within a few consecutive bytes. -/
inductive Burst : (original altered : Bytes) → Prop
  | intro (front old new back : Bytes) (hfields : lengthFields ≤ front.length)
      (hlength : old.length = new.length) (hwindow : old.length ≤ burstLength) (hne : old ≠ new) :
    Burst (front ++ old ++ back) (front ++ new ++ back)

/-- Reading noticed the flags or the checksum of a frame. -/
inductive Damage.OfContent : Damage → Prop
  | unknownFlags (flags : UInt8) : OfContent (.unknownFlags flags)
  | checksum (stored computed : UInt32) : OfContent (.checksum stored computed)

namespace Burst

variable {original altered : Bytes}

theorem lengthFields_le (h : Burst original altered) : lengthFields ≤ altered.length := by
  obtain ⟨front, old, new, back, hfields, -, -, -⟩ := h
  rw [List.length_append, List.length_append]
  omega

theorem length_eq (h : Burst original altered) : altered.length = original.length := by
  obtain ⟨front, old, new, back, -, hlength, -, -⟩ := h
  simp [hlength]

theorem take_lengths (h : Burst original altered) :
    altered.take lengthFields = original.take lengthFields := by
  obtain ⟨front, old, new, back, hfields, -, -, -⟩ := h
  rw [List.append_assoc, List.append_assoc, List.take_append_of_le_length hfields,
    List.take_append_of_le_length hfields]

/-- The register of the checksum tells an altered byte string from the original. -/
theorem fold_ne (h : Burst original altered) (r : UInt32) :
    altered.foldl Crc32.feed r ≠ original.foldl Crc32.feed r := by
  obtain ⟨front, old, new, back, -, hlength, hwindow, hne⟩ := h
  intro hfold
  simp only [List.foldl_append] at hfold
  exact hne (Crc32.window_injective hlength hwindow (Crc32.fold_injective back hfold).symm)

end Burst

/-! ## Frames -/

theorem Header.frameLength_of_take {bytes bytes' : Bytes} {h h' : Header}
    (hparse : Header.parse bytes = .ok h) (hparse' : Header.parse bytes' = .ok h')
    (htake : bytes.take lengthFields = bytes'.take lengthFields) :
    h.frameLength = h'.frameLength := by
  -- each length is read from within the bytes that agree
  have hslice : ∀ offset, offset + 4 ≤ lengthFields →
      bytes.slice offset 4 = bytes'.slice offset 4 := by
    intro offset hoffset
    have hcut : ∀ b : Bytes, b.slice offset 4 = Bytes.slice (b.take lengthFields) offset 4 := by
      intro b
      rw [Bytes.slice, Bytes.slice, List.drop_take, List.take_take, Nat.min_eq_left (by omega)]
    rw [hcut bytes, hcut bytes', htake]
  have hlengths : ∀ {b : Bytes} {h : Header}, Header.parse b = .ok h →
      h.frameLength = Dataflow.frameLength (Bytes.ofLittleEndian (b.slice 0 4))
        (Bytes.ofLittleEndian (b.slice 4 4)) := by
    intro b h hb
    unfold Header.parse at hb
    dsimp only at hb
    split at hb <;> cases hb
    rfl
  rw [hlengths hparse, hlengths hparse', hslice 0 (by decide), hslice 4 (by decide)]

namespace Record

theorem fold_frame (r : Record) :
    r.frame.foldl Crc32.feed Crc32.full = Crc32.shifts 32 Crc32.full :=
  Crc32.fold_trailer r.body

theorem take_headerBytes (r : Record) :
    r.headerBytes.take lengthFields = r.frame.take lengthFields := by
  have htake := List.prefix_iff_eq_take.mp r.headerBytes_prefix
  rw [htake, r.length_headerBytes, List.take_take]
  rfl

end Record

namespace Burst

variable {r : Record} {altered : Bytes}

/-- Behind the alteration of a frame no header claims another length. -/
theorem frameLength_eq (h : Burst r.frame altered) (hr : r.Fits) {bytes : Bytes} {header : Header}
    (hbytes : bytes.take lengthFields = altered.take lengthFields)
    (hparse : Header.parse bytes = .ok header) : header.frameLength = r.frame.length := by
  rw [← r.frameLength_header]
  refine Header.frameLength_of_take hparse (Header.parse_headerBytes hr) ?_
  rw [hbytes, h.take_lengths, r.take_headerBytes]

/-- No frame stands where the frame of a record has been altered. -/
theorem noFrame (h : Burst r.frame altered) (hr : r.Fits) (after : Bytes) :
    NoFrame (altered ++ after) := by
  intro r' hr' hat
  have hfields : lengthFields ≤ r'.frame.length :=
    Nat.le_trans (by decide) (Nat.le_of_lt r'.length_frame_pos)
  have htake : r'.headerBytes.take lengthFields = altered.take lengthFields := by
    rw [r'.take_headerBytes, List.prefix_iff_eq_take.mp hat, List.take_take,
      Nat.min_eq_left hfields, List.take_append_of_le_length h.lengthFields_le]
  have hlength : r'.frame.length = altered.length := by
    rw [h.length_eq, ← r'.frameLength_header]
    exact h.frameLength_eq hr htake (Header.parse_headerBytes hr')
  have hframe : r'.frame = altered := by
    rw [List.prefix_iff_eq_take.mp hat, hlength, List.take_left]
  apply h.fold_ne Crc32.full
  rw [← hframe, r'.fold_frame, r.fold_frame]

end Burst

/-! ## Stores and logs -/

/-- The bytes of a store in which the frame of a record has been altered. -/
structure Altered (r : Record) (before after image : Bytes) : Prop where
  fits : r.Fits
  burst : ∃ altered, Burst r.frame altered ∧ image = before ++ altered ++ after

variable {r : Record} {before after image : Bytes}

theorem Altered.room (h : Altered r before after image) :
    before.length + r.frame.length ≤ image.length := by
  obtain ⟨-, altered, hburst, rfl⟩ := h
  simp [hburst.length_eq]

theorem Altered.noFrame (h : Altered r before after image) :
    ∃ rest, image = before ++ rest ∧ rest ≠ [] ∧ NoFrame rest := by
  obtain ⟨hr, altered, hburst, rfl⟩ := h
  refine ⟨altered ++ after, List.append_assoc _ _ _, ?_, hburst.noFrame hr after⟩
  intro hempty
  have hlong := hburst.lengthFields_le
  rw [(List.append_eq_nil_iff.mp hempty).1] at hlong
  cases hlong

variable {σ : Type} [Store σ] {Holds : σ → Bytes → Prop}

/-! ### Reading -/

theorem Frame.read_altered (readable : Store.Readable Holds) (h : Altered r before after image)
    {s : σ} (hs : Holds s image) {limit : Nat} (hlimit : before.length + r.frame.length ≤ limit)
    (hend : limit ≤ image.length) :
    ∃ d s', Frame.read s before.length limit = (.error (.damaged d), s') ∧ d.OfContent := by
  obtain ⟨hr, altered, hburst, rfl⟩ := h
  have hlong := r.length_frame_pos
  have hdrop : (before ++ altered ++ after).drop before.length = altered ++ after := by
    rw [List.append_assoc, List.drop_left]
  obtain ⟨d, s', hread, -⟩ := Frame.read_damaged readable hs hend
    (hdrop.symm ▸ hburst.noFrame hr after)
  refine ⟨d, s', hread, ?_⟩
  have hanswer : Frame.Answer _ before.length limit _ := Frame.answer_read readable hs hend
  rw [hread] at hanswer
  cases hanswer with
  | tornHeader hshort => omega
  | unknownFlags flags => exact .unknownFlags flags
  | checksum header stored computed => exact .checksum stored computed
  | torn header hroom hheader hshort =>
    have hlength : header.frameLength = r.frame.length := by
      refine hburst.frameLength_eq hr ?_ hheader
      have hle : min lengthFields headerLength ≤ altered.length :=
        Nat.le_trans (Nat.min_le_left _ _) hburst.lengthFields_le
      rw [Bytes.slice, hdrop, List.take_take, List.take_append_of_le_length hle]
      rfl
    omega

/-- What stops a survey is what reading at that place answers. -/
theorem Frame.read_of_stop {P : σ → Prop} (hP : Store.ReadsKeep P) {s s' : σ}
    {fuel offset limit stop : Nat} {found : Survey} {e : FrameFault} (hs : P s)
    (h : surveyFrom fuel s offset limit = (found, s')) (hstop : found.stop = some (stop, e)) :
    ∃ s₁ s₂, P s₁ ∧ Frame.read s₁ stop limit = (.error e, s₂) := by
  induction fuel generalizing s offset found with
  | zero =>
    cases h
    cases hstop
  | succ fuel ih =>
    unfold surveyFrom at h
    split at h
    · cases h
      cases hstop
    · split at h
      · rename_i hread
        cases h
        cases hstop
        exact ⟨_, _, hs, hread⟩
      · rename_i hread
        cases h
        exact ih (read_keeps hP hs hread) rfl hstop

/-- A survey that gets as far as the altered record stops there. -/
theorem Altered.survey_stops (readable : Store.Readable Holds) (h : Altered r before after image)
    {rs : List Record} (hfits : ∀ r ∈ rs, r.Fits) (hbefore : before = Record.logBytes rs) {s : σ}
    (hs : Holds s image) :
    ∃ frames d s', Frame.survey s = (⟨frames, some (before.length, .damaged d)⟩, s') ∧
      d.OfContent := by
  obtain ⟨rest, himage, hrest, hnone⟩ := h.noFrame
  have hs₀ : Holds s (Record.logBytes rs ++ rest) := hbefore ▸ himage ▸ hs
  obtain ⟨s', stop, hsurvey, -, hstop⟩ := Frame.survey_eq readable hs₀ hfits hnone
  rw [StopsAt, if_neg hrest, ← hbefore] at hstop
  obtain ⟨d, rfl⟩ := hstop
  refine ⟨_, d, s', hsurvey, ?_⟩
  obtain ⟨s₁, s₂, hs₁, hread⟩ :=
    Frame.read_of_stop (readable.readAt_keeps image) hs hsurvey rfl
  obtain ⟨d', s₃, hread', hd'⟩ := Frame.read_altered readable h hs₁ h.room (Nat.le_refl _)
  rw [readable.size_eq hs, hread'] at hread
  cases hread
  exact hd'

/-! ### Look-ups -/

namespace Log

theorem lookup_altered_indexed (readable : Store.Readable Holds)
    (h : Altered r before after image) {log : Log σ} (hs : Holds log.store image)
    (hsound : log.poisoned = false) {key : Bytes} {extent : Extent}
    (hindex : (log.index.get key).1 = some extent) (hoffset : extent.offset = before.length)
    (hlength : extent.length = r.frame.length) :
    ∃ d, (log.lookup key).1 = .error (.corrupt before.length d) ∧ d.OfContent := by
  obtain ⟨d, s', hread, hd⟩ := Frame.read_altered readable h hs (Nat.le_refl _) h.room
  refine ⟨d, ?_, hd⟩
  rcases hget : log.index.get key with ⟨found, index⟩
  rw [hget] at hindex
  obtain rfl : found = some extent := hindex
  simp only [lookup, hsound, find, hget, valueAt, hoffset, hlength, hread, FrameFault.at,
    Bool.false_eq_true, if_false]

theorem lookup_altered_scanned (readable : Store.Readable Holds)
    (h : Altered r before after image) {log : Log σ} (hs : Holds log.store image)
    (hsound : log.poisoned = false) {key : Bytes} (hindex : (log.index.get key).1 = none)
    (hpartial : log.index.isPartial = true) {rs : List Record} (hfits : ∀ r ∈ rs, r.Fits)
    (hbefore : before = Record.logBytes rs) :
    ∃ d, (log.lookup key).1 = .error (.corrupt before.length d) ∧ d.OfContent := by
  obtain ⟨frames, d, s', hsurvey, hd⟩ := h.survey_stops readable hfits hbefore hs
  refine ⟨d, ?_, hd⟩
  rcases hget : log.index.get key with ⟨found, index⟩
  rw [hget] at hindex
  obtain rfl : found = none := hindex
  simp only [lookup, hsound, find, hget, hpartial, scan, hsurvey, FrameFault.at,
    Bool.false_eq_true, if_false, if_true]

end Log

/-! ### All who read -/

/-- What happens to those who read where a frame of the given length has been altered. -/
structure AlterationNoticed (Holds : σ → Bytes → Prop) (length : Nat) (before image : Bytes) :
    Prop where
  read : ∀ s limit, Holds s image → before.length + length ≤ limit → limit ≤ image.length →
    ∃ d s', Frame.read s before.length limit = (.error (.damaged d), s') ∧ d.OfContent
  /-- If the bytes before the frame are a log, an opening keeps exactly that log. -/
  opened : ∀ settings s rs, Holds s image → settings.validate = .ok () → (∀ r ∈ rs, r.Fits) →
    before = Record.logBytes rs →
      ∃ log, Log.open settings s = .ok log ∧ Log.Recovered Holds image rs log
  /-- A look-up of a key that the index believes to be there is an error. -/
  indexed : ∀ (log : Log σ) key extent, Holds log.store image → log.poisoned = false →
    (log.index.get key).1 = some extent → extent.offset = before.length → extent.length = length →
      ∃ d, (log.lookup key).1 = .error (.corrupt before.length d) ∧ d.OfContent
  /-- So is a look-up that has to read the whole log. -/
  scanned : ∀ (log : Log σ) key rs, Holds log.store image → log.poisoned = false →
    (log.index.get key).1 = none → log.index.isPartial = true → (∀ r ∈ rs, r.Fits) →
      before = Record.logBytes rs →
        ∃ d, (log.lookup key).1 = .error (.corrupt before.length d) ∧ d.OfContent

/-- A change of up to four consecutive bytes of a stored record, behind its lengths, is noticed by
everyone who reads the record. -/
theorem alteration_noticed (reliable : Store.Reliable Holds) {r : Record} {original altered : Bytes}
    (hencode : r.encode = .ok original) (hsequence : r.sequence.number ≤ SequenceNumber.maxNumber)
    (haltered : Burst original altered) (before after : Bytes) :
    AlterationNoticed Holds original.length before (before ++ altered ++ after) := by
  obtain ⟨hkey, hvalue, rfl⟩ := Record.encode_eq_ok_iff.mp hencode
  have h : Altered r before after (before ++ altered ++ after) :=
    ⟨⟨hkey, hvalue, hsequence⟩, altered, haltered, rfl⟩
  refine ⟨?_, ?_, ?_, ?_⟩
  · intro s limit hs hlimit hend
    exact Frame.read_altered reliable.toReadable h hs hlimit hend
  · intro settings s rs hs hsettings hfits hbefore
    obtain ⟨rest, himage, -, hnone⟩ := h.noFrame
    have hrecoverable : Recoverable (before ++ altered ++ after) rs :=
      ⟨hfits, rest, hbefore ▸ himage, hnone⟩
    obtain ⟨s', hopen, hs'⟩ := Log.open_eq reliable hsettings hs hrecoverable
    exact ⟨_, hopen, Log.recovered_ofFrames reliable.toReadLaws hrecoverable settings hs'⟩
  · intro log key extent hs hsound hindex hoffset hlength
    exact Log.lookup_altered_indexed reliable.toReadable h hs hsound hindex hoffset hlength
  · intro log key rs hs hsound hindex hpartial hfits hbefore
    exact Log.lookup_altered_scanned reliable.toReadable h hs hsound hindex hpartial hfits hbefore

/-- Four bytes are changed, the last two of the value and the first two of the checksum. -/
theorem alteration_noticed_straddling :
    let r : Record := ⟨[1], [10, 11, 12], .persist, false, ⟨7⟩⟩
    let altered : Bytes := r.frame.take 19 ++ [0, 0, 0, 0] ++ r.frame.drop 23
    let image : Bytes := [9, 9] ++ altered ++ [4]
    (r.encode = .ok r.frame ∧ r.sequence.number ≤ SequenceNumber.maxNumber ∧
        Burst r.frame altered) ∧
      AlterationNoticed MemoryStore.Holds r.frame.length [9, 9] image := by
  intro r altered image
  have hencode : r.encode = .ok r.frame := by decide +kernel
  have hsequence : r.sequence.number ≤ SequenceNumber.maxNumber := by decide
  have hframe : r.frame = r.frame.take 19 ++ (r.frame.drop 19).take 4 ++ r.frame.drop 23 := by
    decide +kernel
  have hburst : Burst r.frame altered := by
    rw [hframe]
    exact .intro (r.frame.take 19) ((r.frame.drop 19).take 4) [0, 0, 0, 0] (r.frame.drop 23)
      (by decide +kernel) (by decide +kernel) (by decide +kernel) (by decide +kernel)
  exact ⟨⟨hencode, hsequence, hburst⟩,
    alteration_noticed MemoryStore.reliable hencode hsequence hburst [9, 9] [4]⟩

end Dataflow

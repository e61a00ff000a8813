import Dataflow.Proofs.Frame.Reading
import Dataflow.Store.Memory

/-!
# Reading a frame, exactly

What reading a frame answers is settled by the bytes between the offset and the limit, and no other
byte of the store is touched, however the lengths in the header are chosen.

* `WatchedStore`: a store that notes which ranges are read.
* `Frame.Answer`: what reading answers for some bytes.
* `Frame.answer_read`: it answers that.
* `Frame.reads_within`: it reads nothing outside.
* `Frame.read_exact`: both, and that a frame which was written is read back.
-/

namespace Dataflow

/-! ## Stores that note what is read -/

/-- A store that notes the ranges, by offset and length, that it is asked to read. -/
structure WatchedStore (σ : Type) where
  inner : σ
  reads : List (Nat × Nat) := []

namespace WatchedStore

variable {σ : Type}

instance [Store σ] : Store (WatchedStore σ) where
  size s := Store.size s.inner
  append s bytes :=
    let (result, inner) := Store.append s.inner bytes
    (result, { s with inner := inner })
  flush s :=
    let (result, inner) := Store.flush s.inner
    (result, { s with inner := inner })
  sync s :=
    let (result, inner) := Store.sync s.inner
    (result, { s with inner := inner })
  readAt s offset length :=
    let (result, inner) := Store.readAt s.inner offset length
    (result, { inner := inner, reads := s.reads ++ [(offset, length)] })
  truncate s size :=
    let (result, inner) := Store.truncate s.inner size
    (result, { s with inner := inner })

/-- All ranges that were read lie between two offsets. -/
def Within (s : WatchedStore σ) (start stop : Nat) : Prop :=
  ∀ range ∈ s.reads, start ≤ range.1 ∧ range.1 + range.2 ≤ stop

theorem Within.note {s : WatchedStore σ} {start stop : Nat} (h : s.Within start stop)
    {offset length : Nat} (hstart : start ≤ offset) (hstop : offset + length ≤ stop) (inner : σ) :
    ({ inner := inner, reads := s.reads ++ [(offset, length)] } : WatchedStore σ).Within start
      stop := by
  intro range hrange
  rcases List.mem_append.mp hrange with hrange | hrange
  · exact h range hrange
  · rw [List.mem_singleton.mp hrange]
    exact ⟨hstart, hstop⟩

end WatchedStore

namespace Frame

variable {σ : Type} [Store σ] {Holds : σ → Bytes → Prop}

/-! ## What is read -/

/-- Reading the header of a watched store answers as without the watch, and stays between the offset
and the limit. -/
theorem headerAt_watched (s : WatchedStore σ) (offset limit : Nat) :
    (headerAt s offset limit).1 = (headerAt s.inner offset limit).1 ∧
      (headerAt s offset limit).2.inner = (headerAt s.inner offset limit).2 ∧
      (s.Within offset limit → (headerAt s offset limit).2.Within offset limit) := by
  unfold headerAt
  dsimp only
  split
  · exact ⟨rfl, rfl, id⟩
  · rename_i havailable
    simp only [Store.readAt]
    rcases Store.readAt s.inner offset headerLength with ⟨answer, inner⟩
    have hwithin : s.Within offset limit →
        ({ inner := inner, reads := s.reads ++ [(offset, headerLength)] } : WatchedStore σ).Within
          offset limit := by
      intro h
      refine h.note (Nat.le_refl _) ?_ inner
      rw [headerLength] at *
      omega
    cases answer <;> exact ⟨rfl, rfl, hwithin⟩

theorem read_watched (s : WatchedStore σ) (offset limit : Nat) :
    (read s offset limit).1 = (read s.inner offset limit).1 ∧
      (s.Within offset limit → (read s offset limit).2.Within offset limit) := by
  obtain ⟨hanswer, hinner, hwithin⟩ := headerAt_watched s offset limit
  unfold read
  rcases hheader : headerAt s offset limit with ⟨answer, s₁⟩
  rcases hheader' : headerAt s.inner offset limit with ⟨answer', inner₁⟩
  rw [hheader, hheader'] at hanswer hinner
  rw [hheader] at hwithin
  obtain rfl : answer = answer' := hanswer
  obtain rfl : s₁.inner = inner₁ := hinner
  cases answer with
  | error e => exact ⟨rfl, hwithin⟩
  | ok header =>
    dsimp only
    split
    · exact ⟨rfl, hwithin⟩
    · rename_i havailable
      simp only [Store.readAt]
      rcases Store.readAt s₁.inner offset header.frameLength with ⟨answer, inner⟩
      have hpos : 0 < header.frameLength := by
        rw [Header.frameLength, frameLength, headerLength]
        omega
      have hnext : s.Within offset limit →
          ({ inner := inner, reads := s₁.reads ++ [(offset, header.frameLength)] } :
            WatchedStore σ).Within offset limit := by
        intro h
        exact (hwithin h).note (Nat.le_refl _) (by omega) inner
      cases answer <;> exact ⟨rfl, hnext⟩

/-- Reading a frame reads nothing outside the offset and the limit. -/
theorem reads_within (s : σ) (offset limit : Nat) :
    (read ({ inner := s } : WatchedStore σ) offset limit).2.Within offset limit := by
  refine (read_watched _ offset limit).2 ?_
  intro range hrange
  cases hrange

/-! ## What is answered -/

/-- What reading at an offset, up to a limit, answers for some bytes. -/
inductive Answer (b : Bytes) (offset limit : Nat) : Except FrameFault Frame → Prop
  /-- The bytes of the frame are those that its record is written as, and its header tells their
  number. -/
  | frame (f : Frame) (before after : Bytes) (hbytes : b = before ++ f.bytes ++ after)
      (hoffset : before.length = offset) (hlimit : offset + f.bytes.length ≤ limit)
      (hencode : f.record.encode = .ok f.bytes)
      (hlength : f.header.frameLength = f.bytes.length) : Answer b offset limit (.ok f)
  | tornHeader (hshort : limit - offset < headerLength) :
    Answer b offset limit (.error (.damaged (.torn headerLength (limit - offset))))
  | unknownFlags (flags : UInt8) (hroom : offset + headerLength ≤ limit)
      (hflags : b[offset + 8]? = some flags) (hunknown : flags &&& ~~~meaningfulBits ≠ 0) :
    Answer b offset limit (.error (.damaged (.unknownFlags flags)))
  | torn (header : Header) (hroom : offset + headerLength ≤ limit)
      (hheader : Header.parse (b.slice offset headerLength) = .ok header)
      (hshort : limit - offset < header.frameLength) :
    Answer b offset limit (.error (.damaged (.torn header.frameLength (limit - offset))))
  | checksum (header : Header) (stored computed : UInt32)
      (hheader : Header.parse (b.slice offset headerLength) = .ok header)
      (hlimit : offset + header.frameLength ≤ limit)
      (hstored : stored = UInt32.ofNat (Bytes.ofLittleEndian
        (b.slice (offset + (header.frameLength - trailerLength)) trailerLength)))
      (hcomputed : computed = crc32 (b.slice offset (header.frameLength - trailerLength)))
      (hne : stored ≠ computed) :
    Answer b offset limit (.error (.damaged (.checksum stored computed)))

theorem parse_error {bytes : Bytes} {d : Damage} (h : Header.parse bytes = .error d) :
    d = .unknownFlags (bytes.getD 8 0) ∧ bytes.getD 8 0 &&& ~~~meaningfulBits ≠ 0 := by
  unfold Header.parse at h
  dsimp only at h
  split at h
  · rename_i hunknown
    cases h
    exact ⟨rfl, hunknown⟩
  · cases h

theorem verify_error {header : Header} {bytes : Bytes} {d : Damage}
    (h : verify header bytes = .error d) :
    ∃ stored computed, d = .checksum stored computed ∧ stored ≠ computed ∧
      stored = UInt32.ofNat (Bytes.ofLittleEndian (bytes.drop (bytes.length - trailerLength))) ∧
      computed = crc32 (bytes.take (bytes.length - trailerLength)) := by
  unfold verify at h
  dsimp only at h
  split at h
  · cases h
  · rename_i hne
    cases h
    exact ⟨_, _, rfl, hne, rfl, rfl⟩

theorem getD_slice {b : Bytes} {offset length i : Nat} (hrange : offset + length ≤ b.length)
    (hi : i < length) : b[offset + i]? = some ((b.slice offset length).getD i 0) := by
  have hlt : offset + i < b.length := by omega
  rw [List.getElem?_eq_getElem hlt, List.getD_eq_getElem?_getD, Bytes.slice, List.getElem?_take,
    if_pos hi, List.getElem?_drop, List.getElem?_eq_getElem hlt, Option.getD_some]

/-- The body and the trailer of a range. -/
theorem slice_parts {b : Bytes} {offset length : Nat} (hrange : offset + length ≤ b.length)
    (htrailer : trailerLength ≤ length) :
    (b.slice offset length).take ((b.slice offset length).length - trailerLength) =
        b.slice offset (length - trailerLength) ∧
      (b.slice offset length).drop ((b.slice offset length).length - trailerLength) =
        b.slice (offset + (length - trailerLength)) trailerLength := by
  rw [Bytes.length_slice hrange]
  constructor
  · rw [Bytes.slice, List.take_take, Nat.min_eq_left (Nat.sub_le _ _)]
    rfl
  · rw [Bytes.slice, Bytes.slice, List.drop_take, List.drop_drop, Nat.sub_sub_self htrailer]

/-- A frame that is read is the one that its record is written as. -/
theorem answer_ok (laws : Store.ReadLaws Holds) {s s' : σ} {b : Bytes} {offset limit : Nat}
    {f : Frame} (hs : Holds s b) (hlimit : limit ≤ b.length)
    (h : read s offset limit = (.ok f, s')) : Answer b offset limit (.ok f) := by
  obtain ⟨hfits, hf, ⟨after, hat⟩, hend⟩ := read_ok laws hs h
  have hbytes : f.bytes = f.record.frame := congrArg Frame.bytes hf
  have hheader : f.header = f.record.header := congrArg Frame.header hf
  have hpos := f.record.length_frame_pos
  refine .frame f (b.take offset) after ?_ ?_ ?_ ?_ ?_
  · rw [List.append_assoc, hbytes, hat, List.take_append_drop]
  · rw [List.length_take]
    omega
  · rw [hbytes]
    exact hend
  · exact Record.encode_eq_ok_iff.mpr ⟨hfits.key, hfits.value, hbytes.symm⟩
  · rw [hheader, hbytes, f.record.frameLength_header]

theorem room_of_headerAt {s s' : σ} {offset limit : Nat} {header : Header}
    (h : headerAt s offset limit = (.ok header, s')) : offset + headerLength ≤ limit := by
  unfold headerAt at h
  dsimp only at h
  split at h
  · cases h
  · rw [headerLength] at *
    omega

theorem answer_headerAt_error (readable : Store.Readable Holds) {s s' : σ} {b : Bytes}
    {offset limit : Nat} {e : FrameFault} (hs : Holds s b) (hlimit : limit ≤ b.length)
    (h : headerAt s offset limit = (.error e, s')) : Answer b offset limit (.error e) := by
  unfold headerAt at h
  dsimp only at h
  split at h
  · rename_i hshort
    cases h
    exact .tornHeader hshort
  · rename_i hlong
    have hroom : offset + headerLength ≤ limit := by
      rw [headerLength] at *
      omega
    obtain ⟨s₁, hread, -⟩ := readable.readAt_eq hs offset headerLength (by omega)
    rw [hread] at h
    dsimp only at h
    cases hparse : Header.parse (b.slice offset headerLength) with
    | ok header =>
      rw [hparse] at h
      cases h
    | error d =>
      rw [hparse] at h
      cases h
      obtain ⟨rfl, hunknown⟩ := parse_error hparse
      exact .unknownFlags _ hroom (getD_slice (by omega) (by decide)) hunknown

omit [Store σ] in
theorem answer_verify_error {b : Bytes} {offset limit : Nat} {header : Header} {d : Damage}
    (hparse : Header.parse (b.slice offset headerLength) = .ok header)
    (hend : offset + header.frameLength ≤ limit) (hlimit : limit ≤ b.length)
    (h : verify header (b.slice offset header.frameLength) = .error d) :
    Answer b offset limit (.error (.damaged d)) := by
  have htrailer : trailerLength ≤ header.frameLength := by
    rw [Header.frameLength, frameLength]
    omega
  obtain ⟨htake, hdrop⟩ := slice_parts (Nat.le_trans hend hlimit) htrailer
  obtain ⟨stored, computed, rfl, hne, hstored, hcomputed⟩ := verify_error h
  rw [hdrop] at hstored
  rw [htake] at hcomputed
  exact .checksum header stored computed hparse hend hstored hcomputed hne

theorem answer_read (readable : Store.Readable Holds) {s : σ} {b : Bytes} (hs : Holds s b)
    {offset limit : Nat} (hlimit : limit ≤ b.length) :
    Answer b offset limit (read s offset limit).1 := by
  rcases hread : read s offset limit with ⟨result, s'⟩
  cases result with
  | ok f => exact answer_ok readable.toReadLaws hs hlimit hread
  | error e =>
    unfold read at hread
    split at hread
    · rename_i hheader
      cases hread
      exact answer_headerAt_error readable hs hlimit hheader
    · rename_i header s₁ hheader
      have hs₁ := headerAt_keeps (readable.readAt_keeps b) hs hheader
      have hparse := headerAt_ok readable.toReadLaws hs hheader
      have hroom := room_of_headerAt hheader
      dsimp only at hread
      split at hread
      · rename_i hshort
        cases hread
        exact .torn header hroom hparse hshort
      · rename_i hlong
        have hend : offset + header.frameLength ≤ limit := by
          rw [headerLength] at hroom
          omega
        obtain ⟨s₂, hread₂, -⟩ := readable.readAt_eq hs₁ offset header.frameLength (by omega)
        rw [hread₂] at hread
        dsimp only at hread
        cases hverify : verify header (b.slice offset header.frameLength) with
        | ok f =>
          rw [hverify] at hread
          cases hread
        | error d =>
          rw [hverify] at hread
          cases hread
          exact answer_verify_error hparse hend hlimit hverify

/-- A frame that was written is read back, whatever lies around it and however far one may read. If
anything else is answered, no such frame lies there. No byte beyond the limit is read. -/
theorem read_exact (readable : Store.Readable Holds) {s : σ} {b : Bytes} (hs : Holds s b)
    (offset : Nat) {limit : Nat} (hlimit : limit ≤ b.length) :
    (∀ r : Record, r.key.length ≤ fieldLimit → r.value.length ≤ fieldLimit →
        r.sequence.number ≤ SequenceNumber.maxNumber →
      ∃ encoded, r.encode = .ok encoded ∧
        frameLength r.key.length r.value.length = encoded.length ∧
        ∀ before after, b = before ++ encoded ++ after → before.length = offset →
          offset + encoded.length ≤ limit →
            ∃ f, (read s offset limit).1 = .ok f ∧ f.record = r ∧
              f.header.frameLength = encoded.length) ∧
    Answer b offset limit (read s offset limit).1 ∧
    (read ({ inner := s } : WatchedStore σ) offset limit).1 = (read s offset limit).1 ∧
    (read ({ inner := s } : WatchedStore σ) offset limit).2.Within offset limit := by
  refine ⟨?_, answer_read readable hs hlimit, (read_watched _ offset limit).1,
    reads_within s offset limit⟩
  intro r hkey hvalue hsequence
  refine ⟨r.frame, Record.encode_eq_ok_iff.mpr ⟨hkey, hvalue, rfl⟩, r.length_frame.symm, ?_⟩
  rintro before after rfl rfl hend
  have hat : r.frame <+: (before ++ r.frame ++ after).drop before.length := by
    rw [List.append_assoc, List.drop_left]
    exact List.prefix_append _ _
  obtain ⟨s', hread, -⟩ := read_at readable hs ⟨hkey, hvalue, hsequence⟩ hat hend
  exact ⟨r.asFrame, by rw [hread], record_asFrame r, r.frameLength_header⟩

/-- A frame between other bytes, with a limit behind it. -/
theorem read_exact_between :
    let r : Record := ⟨[1, 2], [10], .persist, false, ⟨7⟩⟩
    let b : Bytes := [9] ++ r.frame ++ [4, 4, 4]
    let s := MemoryStore.ofBytes b
    s.Holds b ∧ 26 ≤ b.length ∧ (∃ f, (read s 1 26).1 = .ok f ∧ f.record = r) ∧
      Answer b 1 26 (read s 1 26).1 := by
  intro r b s
  have hs : s.Holds b := rfl
  have hlimit : 26 ≤ b.length := by decide +kernel
  obtain ⟨hwritten, hanswer, -⟩ :=
    read_exact MemoryStore.reliable.toReadable hs 1 hlimit
  obtain ⟨encoded, hencode, hlength, hback⟩ := hwritten r (by decide) (by decide) (by decide)
  have hframe : r.frame = encoded := (Record.encode_eq_ok_iff.mp hencode).2.2
  obtain ⟨f, hread, hf, -⟩ := hback [9] [4, 4, 4] (by rw [← hframe]) rfl
    (by rw [← hlength]; decide)
  exact ⟨hs, hlimit, ⟨f, hread, hf⟩, hanswer⟩

end Frame

end Dataflow

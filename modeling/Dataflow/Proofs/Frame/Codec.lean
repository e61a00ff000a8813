import Dataflow.Frame.Basic

/-!
# Frames are read back

The bytes of a frame say all of its record, and nothing else has the form of a frame.

* `Record.Fits`: the fields of a record fit the widths that a frame has for them.
* `Header.parse_headerBytes`, `Frame.verify_frame`: a frame that was written is read back.
* `Frame.eq_asFrame_of_verify`: bytes that are accepted as a frame are the frame of the record
  which is read from them.
-/

namespace Dataflow

namespace Record

/-- The fields of a record fit the widths that a frame has for them. -/
structure Fits (r : Record) : Prop where
  key : r.key.length ≤ fieldLimit
  value : r.value.length ≤ fieldLimit
  sequence : r.sequence.number ≤ SequenceNumber.maxNumber

theorem encode_eq_ok_iff {r : Record} {bytes : Bytes} :
    r.encode = .ok bytes ↔
      r.key.length ≤ fieldLimit ∧ r.value.length ≤ fieldLimit ∧ r.frame = bytes := by
  unfold encode
  split
  · simp only [reduceCtorEq, false_iff]
    omega
  · split
    · simp only [reduceCtorEq, false_iff]
      omega
    · rename_i hk hv
      simp only [Except.ok.injEq]
      constructor
      · intro h
        exact ⟨by omega, by omega, h⟩
      · intro h
        exact h.2.2

/-- The header of a record's frame, as it is read. -/
def header (r : Record) : Header := ⟨r.key.length, r.value.length, r.flags, r.sequence⟩

theorem length_headerBytes (r : Record) : r.headerBytes.length = headerLength := by
  simp [headerBytes, headerLength]

/-- The bytes of a header depend on the record through its header alone. -/
theorem headerBytes_eq (r : Record) : r.headerBytes =
    Bytes.littleEndian 4 r.header.keyLength ++ Bytes.littleEndian 4 r.header.valueLength ++
      r.header.flags :: Bytes.littleEndian 8 r.header.sequence.number := rfl

theorem length_frame_pos (r : Record) : headerLength < r.frame.length := by
  rw [r.length_frame, frameLength, trailerLength]
  omega

theorem frameLength_header (r : Record) : r.header.frameLength = r.frame.length :=
  r.length_frame.symm

/-! ## Flags -/

theorem flags_meaningful (r : Record) : r.flags &&& ~~~meaningfulBits = 0 := by
  unfold flags
  split <;> split <;> decide

theorem durability_header (r : Record) : r.header.durability = r.durability := by
  obtain ⟨_, _, durability, replace, _⟩ := r
  unfold header Header.durability flags
  cases durability <;> cases replace <;> simp [persistentBit, replaceBit] <;> decide

theorem replace_header (r : Record) : r.header.replace = r.replace := by
  obtain ⟨_, _, durability, replace, _⟩ := r
  unfold header Header.replace flags
  cases durability <;> cases replace <;> simp [persistentBit, replaceBit] <;> decide

end Record

/-- The two meaningful bits say all of a byte that has no others. -/
theorem flags_of_bits (flags : UInt8) (h : flags &&& ~~~meaningfulBits = 0) :
    ((if flags &&& persistentBit ≠ 0 then persistentBit else 0) |||
      (if flags &&& replaceBit ≠ 0 then replaceBit else 0)) = flags := by
  revert h
  have hall : ∀ n : Fin 256, UInt8.ofNat n &&& ~~~meaningfulBits = 0 →
      ((if UInt8.ofNat n &&& persistentBit ≠ 0 then persistentBit else 0) |||
        (if UInt8.ofNat n &&& replaceBit ≠ 0 then replaceBit else 0)) = UInt8.ofNat n := by
    decide +kernel
  have hn := hall ⟨flags.toNat, flags.toNat_lt⟩
  simpa using hn

/-! ## Headers -/

namespace Header

theorem parse_headerBytes {r : Record} (h : r.Fits) : parse r.headerBytes = .ok r.header := by
  have hk : Bytes.ofLittleEndian (Bytes.littleEndian 4 r.key.length) = r.key.length :=
    Bytes.ofLittleEndian_littleEndian (Nat.lt_of_le_of_lt h.key (by decide))
  have hv : Bytes.ofLittleEndian (Bytes.littleEndian 4 r.value.length) = r.value.length :=
    Bytes.ofLittleEndian_littleEndian (Nat.lt_of_le_of_lt h.value (by decide))
  have hs : Bytes.ofLittleEndian (Bytes.littleEndian 8 r.sequence.number) = r.sequence.number :=
    Bytes.ofLittleEndian_littleEndian (Nat.lt_of_le_of_lt h.sequence (by decide))
  have hflags : r.headerBytes.getD 8 0 = r.flags := by
    simp [Record.headerBytes, List.getD_eq_getElem?_getD]
  have hkey : r.headerBytes.slice 0 4 = Bytes.littleEndian 4 r.key.length := by
    simp [Bytes.slice, Record.headerBytes]
  have hvalue : r.headerBytes.slice 4 4 = Bytes.littleEndian 4 r.value.length := by
    simp [Bytes.slice, Record.headerBytes]
  have hsequence : r.headerBytes.slice 9 8 = Bytes.littleEndian 8 r.sequence.number := by
    have hdrop : r.headerBytes.drop 9 = Bytes.littleEndian 8 r.sequence.number := by
      simp [Record.headerBytes, List.drop_append, List.drop_of_length_le]
    rw [Bytes.slice, hdrop, List.take_of_length_le (by simp)]
  unfold parse
  rw [hflags, hkey, hvalue, hsequence, hk, hv, hs]
  simp only [r.flags_meaningful, ne_eq, not_true_eq_false, if_false]
  rfl

/-- A header that is read says all of the bytes that it was read from. -/
theorem fields_of_parse {bytes : Bytes} {h : Header} (hlen : bytes.length = headerLength)
    (hparse : parse bytes = .ok h) :
    h.flags &&& ~~~meaningfulBits = 0 ∧ h.keyLength ≤ fieldLimit ∧ h.valueLength ≤ fieldLimit ∧
      h.sequence.number ≤ SequenceNumber.maxNumber ∧
      bytes = Bytes.littleEndian 4 h.keyLength ++ Bytes.littleEndian 4 h.valueLength ++
        h.flags :: Bytes.littleEndian 8 h.sequence.number := by
  have hlen' : bytes.length = 17 := hlen
  unfold parse at hparse
  dsimp only at hparse
  split at hparse
  · cases hparse
  · rename_i hflags
    cases hparse
    have hk : (bytes.slice 0 4).length = 4 := Bytes.length_slice (by omega)
    have hv : (bytes.slice 4 4).length = 4 := Bytes.length_slice (by omega)
    have hs : (bytes.slice 9 8).length = 8 := Bytes.length_slice (by omega)
    have hkey := Bytes.littleEndian_ofLittleEndian (bytes.slice 0 4)
    have hvalue := Bytes.littleEndian_ofLittleEndian (bytes.slice 4 4)
    have hsequence := Bytes.littleEndian_ofLittleEndian (bytes.slice 9 8)
    have hkeyLt := Bytes.ofLittleEndian_lt (bytes.slice 0 4)
    have hvalueLt := Bytes.ofLittleEndian_lt (bytes.slice 4 4)
    have hsequenceLt := Bytes.ofLittleEndian_lt (bytes.slice 9 8)
    rw [hk] at hkey hkeyLt
    rw [hv] at hvalue hvalueLt
    rw [hs] at hsequence hsequenceLt
    refine ⟨by simpa using hflags, Nat.le_sub_one_of_lt hkeyLt, Nat.le_sub_one_of_lt hvalueLt,
      Nat.le_sub_one_of_lt hsequenceLt, ?_⟩
    simp only [hkey, hvalue, hsequence]
    have hcut : bytes = bytes.take 4 ++ (bytes.drop 4).take 4 ++ bytes.getD 8 0 ::
        (bytes.drop 9).take 8 := by
      have h8 : bytes.drop 8 = bytes.getD 8 0 :: bytes.drop 9 := by
        rw [List.drop_eq_getElem_cons (by omega), List.getD_eq_getElem?_getD,
          List.getElem?_eq_getElem (by omega), Option.getD_some]
      rw [List.take_of_length_le (l := bytes.drop 9) (by simp [hlen']), ← h8, List.append_assoc,
        ← List.drop_drop (i := 4) (j := 4), List.take_append_drop, List.take_append_drop]
    exact hcut

end Header

/-! ## Frames -/

namespace Record

/-- The frame of a record, as it is read. -/
def asFrame (r : Record) : Frame := ⟨r.header, r.frame⟩

end Record

namespace Frame

theorem record_asFrame (r : Record) : r.asFrame.record = r := by
  have hkey : r.frame.drop headerLength = r.key ++ (r.value ++
      Bytes.littleEndian 4 (crc32 r.body).toNat) := by
    rw [← r.length_headerBytes, Record.frame, Record.body, List.append_assoc, List.append_assoc,
      List.drop_left]
  have hvalue : r.frame.drop (headerLength + r.key.length) = r.value ++
      Bytes.littleEndian 4 (crc32 r.body).toNat := by
    rw [← List.drop_drop, hkey, List.drop_left]
  have hk : r.asFrame.key = r.key := by
    rw [key, Bytes.slice, Record.asFrame, hkey]
    exact List.take_left
  have hv : r.asFrame.value = r.value := by
    rw [value, Bytes.slice, Record.asFrame, Record.header, hvalue]
    exact List.take_left
  rw [record, hk, hv]
  change Record.mk r.key r.value r.header.durability r.header.replace r.sequence = r
  rw [r.durability_header, r.replace_header]

theorem verify_frame (r : Record) : verify r.header r.frame = .ok r.asFrame := by
  have hbody : r.frame.length - trailerLength = r.body.length := by
    simp [Record.frame, trailerLength]
  have htrailer : UInt32.ofNat (Bytes.ofLittleEndian (r.frame.drop r.body.length)) =
      crc32 r.body := by
    rw [Record.frame, List.drop_left,
      Bytes.ofLittleEndian_littleEndian (UInt32.toNat_lt _), UInt32.ofNat_toNat]
  have htake : r.frame.take r.body.length = r.body := by
    rw [Record.frame, List.take_left]
  unfold verify
  simp only [hbody, htrailer, htake, if_true]
  rfl

section Parsed

variable {h : Header} {bytes : Bytes}
  (hparse : Header.parse (bytes.take headerLength) = .ok h) (hlen : bytes.length = h.frameLength)

include hparse hlen

/-- The record that is read from some bytes has the header that was parsed from them. -/
theorem header_record : (record ⟨h, bytes⟩).header = h := by
  have hlen' : bytes.length = 17 + 4 + h.keyLength + h.valueLength := hlen
  obtain ⟨hflags, -⟩ := Header.fields_of_parse
    (by rw [List.length_take, headerLength]; omega) hparse
  have hkey : (bytes.slice headerLength h.keyLength).length = h.keyLength :=
    Bytes.length_slice (by simp only [headerLength]; omega)
  have hvalue : (bytes.slice (headerLength + h.keyLength) h.valueLength).length = h.valueLength :=
    Bytes.length_slice (by simp only [headerLength]; omega)
  have hf : (record ⟨h, bytes⟩).flags = h.flags := by
    rw [← flags_of_bits h.flags hflags]
    simp [record, Record.flags, Header.durability, Header.replace]
  rw [Record.header, hf]
  change Header.mk (bytes.slice headerLength h.keyLength).length
    (bytes.slice (headerLength + h.keyLength) h.valueLength).length h.flags h.sequence = h
  rw [hkey, hvalue]

theorem fits_record : (record ⟨h, bytes⟩).Fits := by
  have hlen' : bytes.length = 17 + 4 + h.keyLength + h.valueLength := hlen
  obtain ⟨-, hk, hv, hs, -⟩ := Header.fields_of_parse
    (by rw [List.length_take, headerLength]; omega) hparse
  have hheader := header_record hparse hlen
  have hkey : (record ⟨h, bytes⟩).key.length = h.keyLength := congrArg Header.keyLength hheader
  have hvalue : (record ⟨h, bytes⟩).value.length = h.valueLength :=
    congrArg Header.valueLength hheader
  exact ⟨hkey.symm ▸ hk, hvalue.symm ▸ hv, hs⟩

/-- Its frame begins with the same bytes, up to the trailer. -/
theorem body_record : (record ⟨h, bytes⟩).body = bytes.take (bytes.length - trailerLength) := by
  have hlen' : bytes.length = 17 + 4 + h.keyLength + h.valueLength := hlen
  obtain ⟨-, -, -, -, hbytes⟩ := Header.fields_of_parse
    (by rw [List.length_take, headerLength]; omega) hparse
  have hhead : (record ⟨h, bytes⟩).headerBytes = bytes.take headerLength := by
    rw [Record.headerBytes_eq, header_record hparse hlen, hbytes]
  have hcut : bytes.length - trailerLength = headerLength + h.keyLength + h.valueLength := by
    simp only [trailerLength, headerLength]
    omega
  rw [Record.body, hhead, hcut, List.take_add, List.take_add]
  rfl

/-- If its checksum is the trailer, its frame is the bytes. -/
theorem frame_record (htrailer : UInt32.ofNat (Bytes.ofLittleEndian
      (bytes.drop (bytes.length - trailerLength))) =
        crc32 (bytes.take (bytes.length - trailerLength))) :
    (record ⟨h, bytes⟩).frame = bytes := by
  have hlen' : bytes.length = 17 + 4 + h.keyLength + h.valueLength := hlen
  have hfour : (bytes.drop (bytes.length - trailerLength)).length = 4 := by
    rw [List.length_drop, trailerLength]
    omega
  have hlt := Bytes.ofLittleEndian_lt (bytes.drop (bytes.length - trailerLength))
  have hwrite := Bytes.littleEndian_ofLittleEndian (bytes.drop (bytes.length - trailerLength))
  rw [hfour] at hlt hwrite
  have hnumber : (crc32 (bytes.take (bytes.length - trailerLength))).toNat =
      Bytes.ofLittleEndian (bytes.drop (bytes.length - trailerLength)) := by
    rw [← htrailer, UInt32.toNat_ofNat']
    exact Nat.mod_eq_of_lt hlt
  rw [Record.frame, body_record hparse hlen, hnumber, hwrite, List.take_append_drop]

end Parsed

/-- Bytes that are accepted as a frame are the frame of the record that is read from them. -/
theorem eq_asFrame_of_verify {h : Header} {bytes : Bytes} {f : Frame}
    (hparse : Header.parse (bytes.take headerLength) = .ok h)
    (hlen : bytes.length = h.frameLength) (hverify : verify h bytes = .ok f) :
    f.record.Fits ∧ f = f.record.asFrame ∧ f.record.frame = bytes := by
  unfold verify at hverify
  simp only at hverify
  split at hverify
  · rename_i htrailer
    cases hverify
    have hframe := frame_record hparse hlen htrailer
    refine ⟨fits_record hparse hlen, ?_, hframe⟩
    rw [Record.asFrame, header_record hparse hlen, hframe]
  · cases hverify

end Frame

end Dataflow

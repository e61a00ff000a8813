import Dataflow.Proofs.Bytes.Varint
import Dataflow.Proofs.Memo.Outputs

/-!
# What is read as memoized outputs

The outputs of a transform are read from the front of a byte string, number by number and output by
output. A byte string either starts with a spelling of some outputs, and then these are what is read
whatever lies behind them; or it is the first part of such a spelling, and then the bytes have ended;
or it is no part of one.

* `RecordedOutputs.Measured`: outputs whose number and lengths fit 64 bits.
* `RecordedOutputs.Spells`: the byte strings that stand for outputs.
* `RecordedOutputs.Reading`: the answers for a byte string; `reading_decode` says that there is no
  other.
* `RecordedOutputs.decode_exact`: the answers for what was written, for its first parts, and for any
  byte string.
-/

namespace Dataflow.RecordedOutputs

/-! ## Spellings -/

/-- The number of the outputs and their lengths fit 64 bits. -/
structure Measured (r : RecordedOutputs) : Prop where
  count_lt : r.outputs.length < Bytes.capacity 8
  output_lt : ∀ output ∈ r.outputs, output.length < Bytes.capacity 8

/-- Outputs one after another, each behind a spelling of its length. -/
inductive SpellsAll : Bytes → List Bytes → Prop
  | nil : SpellsAll [] []
  | cons {length output used : Bytes} {outputs : List Bytes}
      (hlength : Varint.Spells length output.length) (hused : SpellsAll used outputs) :
    SpellsAll (length ++ (output ++ used)) (output :: outputs)

/-- A byte string stands for outputs: a spelling of their number, then the outputs. -/
inductive Spells : Bytes → RecordedOutputs → Prop
  | intro {count used : Bytes} {outputs : List Bytes}
      (hcount : Varint.Spells count outputs.length) (hused : SpellsAll used outputs) :
    Spells (count ++ used) ⟨outputs⟩

theorem spellsAll_flatMap {outputs : List Bytes}
    (h : ∀ output ∈ outputs, output.length < Bytes.capacity 8) :
    SpellsAll (outputs.flatMap encodeOutput) outputs := by
  induction outputs with
  | nil => exact .nil
  | cons output outputs ih =>
    obtain ⟨houtput, houtputs⟩ := List.forall_mem_cons.mp h
    rw [List.flatMap_cons, encodeOutput, List.append_assoc]
    exact .cons (Varint.spells_encode houtput) (ih houtputs)

/-- Any number of empty outputs. -/
theorem spellsAll_replicate (count : Nat) :
    SpellsAll ((List.replicate count ([] : Bytes)).flatMap encodeOutput)
      (List.replicate count []) := by
  apply spellsAll_flatMap
  intro output houtput
  rw [List.eq_of_mem_replicate houtput]
  decide

/-- What is written stands for the outputs. -/
theorem Measured.spells {r : RecordedOutputs} (h : r.Measured) : Spells r.encode r :=
  .intro (Varint.spells_encode h.count_lt) (spellsAll_flatMap h.output_lt)

theorem SpellsAll.length_flatMap_le {used : Bytes} {outputs : List Bytes}
    (h : SpellsAll used outputs) : (outputs.flatMap encodeOutput).length ≤ used.length := by
  induction h with
  | nil => exact Nat.le_refl 0
  | cons hlength hused ih =>
    have hle := hlength.digits.length_encode_le
    simp only [List.flatMap_cons, encodeOutput, List.length_append]
    omega

/-- No spelling is shorter than what is written. -/
theorem Spells.length_encode_le {used : Bytes} {r : RecordedOutputs} (h : Spells used r) :
    r.encode.length ≤ used.length := by
  obtain ⟨hcount, hused⟩ := h
  have hle := hcount.digits.length_encode_le
  have hle' := hused.length_flatMap_le
  simp only [encode, List.length_append]
  omega

/-! ## One output -/

theorem decodeOutput_eq_ok_iff {bytes output rest : Bytes} :
    decodeOutput bytes = .ok (output, rest) ↔
      ∃ length, bytes = length ++ (output ++ rest) ∧ Varint.Spells length output.length := by
  constructor
  · intro h
    unfold decodeOutput at h
    split at h
    · cases h
    · rename_i n behind hn
      dsimp only at h
      split at h
      · cases h
      · rename_i hlong
        cases h
        obtain ⟨length, rfl, hlength⟩ := Varint.decode_eq_ok_iff.mp hn
        have hn : (behind.take n).length = n := by
          rw [List.length_take] at hlong ⊢
          omega
        exact ⟨length, by rw [List.take_append_drop], hn.symm ▸ hlength⟩
  · rintro ⟨length, rfl, hlength⟩
    rw [decodeOutput, hlength.decode]
    dsimp only
    rw [List.take_left, List.drop_left, if_neg (Nat.lt_irrefl _)]

theorem decodeOutput_endOfBuffer {bytes : Bytes} (h : decodeOutput bytes = .error .endOfBuffer) :
    ∃ more output, decodeOutput (bytes ++ more) = .ok (output, []) := by
  unfold decodeOutput at h
  split at h
  · rename_i e hlength
    cases h
    obtain ⟨more, n, hspells⟩ := Varint.decode_endOfBuffer hlength
    refine ⟨more ++ List.replicate n 0, List.replicate n 0, decodeOutput_eq_ok_iff.mpr ?_⟩
    refine ⟨bytes ++ more, by rw [List.append_nil, List.append_assoc], ?_⟩
    rwa [List.length_replicate]
  · rename_i n behind hn
    dsimp only at h
    split at h
    · rename_i hshort
      cases h
      obtain ⟨length, rfl, hlength⟩ := Varint.decode_eq_ok_iff.mp hn
      -- Zeros fill what is missing of the output.
      refine ⟨List.replicate (n - behind.length) 0,
        behind ++ List.replicate (n - behind.length) 0, decodeOutput_eq_ok_iff.mpr ?_⟩
      refine ⟨length, by rw [List.append_nil, List.append_assoc], ?_⟩
      have hn : (behind ++ List.replicate (n - behind.length) 0).length = n := by
        rw [List.length_take] at hshort
        rw [List.length_append, List.length_replicate]
        omega
      rwa [hn]
    · cases h

theorem decodeOutput_badVarint {bytes : Bytes} (h : decodeOutput bytes = .error .badVarint)
    (more : Bytes) : decodeOutput (bytes ++ more) = .error .badVarint := by
  unfold decodeOutput at h ⊢
  split at h
  · rename_i e hlength
    cases h
    rw [Varint.decode_badVarint hlength]
  · dsimp only at h
    split at h <;> cases h

/-! ## Outputs one after another -/

theorem decodeOutputs_eq_ok_iff {count : Nat} {read outputs : List Bytes} {bytes : Bytes} :
    decodeOutputs count read bytes = .ok outputs ↔
      ∃ used rest new, bytes = used ++ rest ∧ SpellsAll used new ∧ new.length = count ∧
        outputs = read.reverse ++ new := by
  induction count generalizing read bytes with
  | zero =>
    rw [decodeOutputs, Except.ok.injEq]
    constructor
    · rintro rfl
      exact ⟨[], bytes, [], rfl, .nil, rfl, (List.append_nil _).symm⟩
    · rintro ⟨used, rest, new, -, -, hnew, rfl⟩
      rw [List.eq_nil_of_length_eq_zero hnew, List.append_nil]
  | succ count ih =>
    rw [decodeOutputs]
    constructor
    · intro h
      split at h
      · cases h
      · rename_i output behind houtput
        obtain ⟨length, rfl, hlength⟩ := decodeOutput_eq_ok_iff.mp houtput
        obtain ⟨used, rest, new, rfl, hused, hnew, rfl⟩ := ih.mp h
        refine ⟨length ++ (output ++ used), rest, output :: new, ?_, .cons hlength hused, ?_, ?_⟩
        · simp only [List.append_assoc]
        · rw [List.length_cons, hnew]
        · rw [List.reverse_cons, List.append_assoc, List.singleton_append]
    · rintro ⟨used, rest, new, rfl, hused, hnew, rfl⟩
      cases hused with
      | nil => cases hnew
      | @cons length output used outputs hlength hused =>
        have houtput : decodeOutput (length ++ (output ++ used) ++ rest) =
            .ok (output, used ++ rest) :=
          decodeOutput_eq_ok_iff.mpr ⟨length, by simp only [List.append_assoc], hlength⟩
        rw [houtput]
        refine ih.mpr ⟨used, rest, outputs, rfl, hused, Nat.succ.inj hnew, ?_⟩
        rw [List.reverse_cons, List.append_assoc, List.singleton_append]

theorem decodeOutputs_endOfBuffer {count : Nat} {read : List Bytes} {bytes : Bytes}
    (h : decodeOutputs count read bytes = .error .endOfBuffer) :
    ∃ more new, SpellsAll (bytes ++ more) new ∧ new.length = count := by
  induction count generalizing read bytes with
  | zero => cases h
  | succ count ih =>
    rw [decodeOutputs] at h
    split at h
    · rename_i e houtput
      cases h
      obtain ⟨more, output, hmore⟩ := decodeOutput_endOfBuffer houtput
      obtain ⟨length, hbytes, hlength⟩ := decodeOutput_eq_ok_iff.mp hmore
      rw [List.append_nil] at hbytes
      refine ⟨more ++ (List.replicate count ([] : Bytes)).flatMap encodeOutput,
        output :: List.replicate count [], ?_, ?_⟩
      · rw [← List.append_assoc, hbytes, List.append_assoc]
        exact .cons hlength (spellsAll_replicate count)
      · rw [List.length_cons, List.length_replicate]
    · rename_i output behind houtput
      obtain ⟨length, rfl, hlength⟩ := decodeOutput_eq_ok_iff.mp houtput
      obtain ⟨more, new, hmore, hnew⟩ := ih h
      refine ⟨more, output :: new, ?_, by rw [List.length_cons, hnew]⟩
      rw [List.append_assoc, List.append_assoc]
      exact .cons hlength hmore

theorem decodeOutputs_badVarint {count : Nat} {read : List Bytes} {bytes : Bytes}
    (h : decodeOutputs count read bytes = .error .badVarint) (more : Bytes) :
    decodeOutputs count read (bytes ++ more) = .error .badVarint := by
  induction count generalizing read bytes with
  | zero => cases h
  | succ count ih =>
    rw [decodeOutputs] at h ⊢
    split at h
    · rename_i e houtput
      cases h
      rw [decodeOutput_badVarint houtput]
    · rename_i output behind houtput
      obtain ⟨length, rfl, hlength⟩ := decodeOutput_eq_ok_iff.mp houtput
      have hmore : decodeOutput (length ++ (output ++ behind) ++ more) =
          .ok (output, behind ++ more) :=
        decodeOutput_eq_ok_iff.mpr ⟨length, by simp only [List.append_assoc], hlength⟩
      rw [hmore]
      exact ih h

/-! ## All outputs -/

/-- The error for bytes that end too soon. -/
def unfinished : Error := .internal (.undecodable .endOfBuffer)

/-- The error for bytes that hold no number where one has to be. -/
def broken : Error := .internal (.undecodable .badVarint)

theorem decode_eq_ok_iff {bytes : Bytes} {r : RecordedOutputs} :
    decode bytes = .ok r ↔ ∃ used rest, bytes = used ++ rest ∧ Spells used r := by
  constructor
  · intro h
    unfold decode at h
    split at h
    · cases h
    · rename_i count behind hcount
      split at h
      · cases h
      · rename_i outputs houtputs
        cases h
        obtain ⟨number, rfl, hnumber⟩ := Varint.decode_eq_ok_iff.mp hcount
        obtain ⟨used, rest, new, rfl, hused, rfl, rfl⟩ := decodeOutputs_eq_ok_iff.mp houtputs
        exact ⟨number ++ used, rest, (List.append_assoc _ _ _).symm, .intro hnumber hused⟩
  · rintro ⟨used, rest, rfl, hcount, hused⟩
    rw [decode, List.append_assoc, hcount.decode]
    dsimp only
    rw [decodeOutputs_eq_ok_iff.mpr ⟨_, rest, _, rfl, hused, rfl, rfl⟩]
    rfl

theorem Spells.decode {used : Bytes} {r : RecordedOutputs} (h : Spells used r) (rest : Bytes) :
    RecordedOutputs.decode (used ++ rest) = .ok r :=
  decode_eq_ok_iff.mpr ⟨used, rest, rfl, h⟩

/-- A byte string stands for the outputs of one record at most. -/
theorem Spells.unique {used : Bytes} {r r' : RecordedOutputs} (h : Spells used r)
    (h' : Spells used r') : r = r' := by
  have hdecode := h.decode []
  rw [h'.decode []] at hdecode
  exact (Except.ok.inj hdecode).symm

/-- What reading answers for some bytes. -/
inductive Reading (bytes : Bytes) : Except Error RecordedOutputs → Prop
  /-- The bytes start with a spelling of the outputs. Those behind it have no say, and the spelling
  is no shorter than what would be written. -/
  | outputs (used rest : Bytes) (r : RecordedOutputs) (hbytes : bytes = used ++ rest)
      (hspells : Spells used r) (hread : ∀ behind, decode (used ++ behind) = .ok r)
      (hlength : r.encode.length ≤ used.length) : Reading bytes (.ok r)
  /-- The bytes do not start with a spelling, but there is one that starts with the bytes. -/
  | unfinished (hnone : ∀ used r, used <+: bytes → ¬Spells used r)
      (hmore : ∃ more r, Spells (bytes ++ more) r) : Reading bytes (.error unfinished)
  /-- No spelling starts with the bytes or with a part of them, and any longer string is refused for
  the same reason. -/
  | broken (hnone : ∀ more used r, used <+: bytes ++ more → ¬Spells used r)
      (hmore : ∀ more, decode (bytes ++ more) = .error broken) : Reading bytes (.error broken)

theorem not_spells_of_error {bytes used : Bytes} {e : Error} (h : decode bytes = .error e)
    (hused : used <+: bytes) (r : RecordedOutputs) : ¬Spells used r := by
  intro hspells
  obtain ⟨rest, rfl⟩ := hused
  rw [hspells.decode] at h
  cases h

theorem decode_error {bytes : Bytes} {e : Error} (h : decode bytes = .error e) :
    e = unfinished ∨ e = broken := by
  have hcases : ∀ d : DecodeError,
      Error.internal (.undecodable d) = unfinished ∨ Error.internal (.undecodable d) = broken := by
    intro d
    cases d with
    | endOfBuffer => exact Or.inl rfl
    | badVarint => exact Or.inr rfl
  unfold decode at h
  split at h
  · cases h
    exact hcases _
  · split at h
    · cases h
      exact hcases _
    · cases h

/-- Where the bytes have ended, they can go on to a spelling. All outputs that are still to come may
be empty. -/
theorem decode_unfinished {bytes : Bytes} (h : decode bytes = .error unfinished) :
    ∃ more r, Spells (bytes ++ more) r := by
  unfold decode at h
  split at h
  · rename_i e hcount
    cases h
    obtain ⟨more, n, hmore⟩ := Varint.decode_endOfBuffer hcount
    refine ⟨more ++ (List.replicate n ([] : Bytes)).flatMap encodeOutput,
      ⟨List.replicate n []⟩, ?_⟩
    rw [← List.append_assoc]
    exact .intro (by rwa [List.length_replicate]) (spellsAll_replicate n)
  · rename_i count behind hcount
    split at h
    · rename_i e houtputs
      cases h
      obtain ⟨number, rfl, hnumber⟩ := Varint.decode_eq_ok_iff.mp hcount
      obtain ⟨more, new, hmore, rfl⟩ := decodeOutputs_endOfBuffer houtputs
      refine ⟨more, ⟨new⟩, ?_⟩
      rw [List.append_assoc]
      exact .intro hnumber hmore
    · cases h

theorem decode_broken {bytes : Bytes} (h : decode bytes = .error broken) (more : Bytes) :
    decode (bytes ++ more) = .error broken := by
  unfold decode at h ⊢
  split at h
  · rename_i e hcount
    cases h
    rw [Varint.decode_badVarint hcount]
    rfl
  · rename_i count behind hcount
    split at h
    · rename_i e houtputs
      cases h
      obtain ⟨number, rfl, hnumber⟩ := Varint.decode_eq_ok_iff.mp hcount
      rw [List.append_assoc, hnumber.decode]
      dsimp only
      rw [decodeOutputs_badVarint houtputs]
      rfl
    · cases h

/-- Reading any byte string answers one of three things. -/
theorem reading_decode (bytes : Bytes) : Reading bytes (decode bytes) := by
  cases hdecode : decode bytes with
  | ok r =>
    obtain ⟨used, rest, hbytes, hspells⟩ := decode_eq_ok_iff.mp hdecode
    exact .outputs used rest r hbytes hspells hspells.decode hspells.length_encode_le
  | error e =>
    rcases decode_error hdecode with rfl | rfl
    · refine .unfinished ?_ (decode_unfinished hdecode)
      intro used r hused
      exact not_spells_of_error hdecode hused r
    · refine .broken ?_ (decode_broken hdecode)
      intro more used r hused
      exact not_spells_of_error (decode_broken hdecode more) hused r

/-- A part of a spelling that is shorter than what would be written has ended too soon: had anything
been read from it, the same would be read from the whole spelling, and that are the outputs for which
the part is too short. -/
theorem Spells.decode_prefix {used bytes : Bytes} {r : RecordedOutputs} (h : Spells used r)
    (hbytes : bytes <+: used) (hshort : bytes.length < r.encode.length) :
    RecordedOutputs.decode bytes = .error unfinished := by
  obtain ⟨rest, rfl⟩ := hbytes
  have hwhole := h.decode []
  rw [List.append_nil] at hwhole
  cases hreading : RecordedOutputs.decode bytes with
  | ok r' =>
    obtain ⟨used', rest', rfl, hspells⟩ := decode_eq_ok_iff.mp hreading
    have hsame : RecordedOutputs.decode (used' ++ rest' ++ rest) = .ok r' := by
      rw [List.append_assoc]
      exact hspells.decode _
    rw [hwhole] at hsame
    cases hsame
    have hle := hspells.length_encode_le
    rw [List.length_append] at hshort
    omega
  | error e =>
    rcases decode_error hreading with rfl | rfl
    · rfl
    · have hbroken := decode_broken hreading rest
      rw [hwhole] at hbroken
      cases hbroken

/-- Outputs that were written are read back, whatever lies behind them, and a part of what was
written is refused because it ends too soon. Any byte string is read as outputs, whose spelling is a
first part of it, or refused; what is written for the outputs that are read from it is no longer. -/
theorem decode_exact :
    (∀ r : RecordedOutputs, r.Measured → ∀ rest, decode (r.encode ++ rest) = .ok r) ∧
    (∀ r : RecordedOutputs, r.Measured → ∀ bytes, bytes <+: r.encode → bytes ≠ r.encode →
      decode bytes = .error unfinished) ∧
    ∀ bytes, Reading bytes (decode bytes) ∧
      ∀ r, decode bytes = .ok r → r.encode.length ≤ bytes.length := by
  refine ⟨fun r hr => hr.spells.decode, ?_, ?_⟩
  · intro r hr bytes hstart hne
    apply hr.spells.decode_prefix hstart
    have hle := hstart.length_le
    have hlength : bytes.length ≠ r.encode.length := fun heq => hne (hstart.eq_of_length heq)
    omega
  · intro bytes
    refine ⟨reading_decode bytes, ?_⟩
    intro r hread
    obtain ⟨used, rest, rfl, hspells⟩ := decode_eq_ok_iff.mp hread
    have hle := hspells.length_encode_le
    rw [List.length_append]
    omega

/-- An empty output, and one whose length takes two bytes, of which a shortened record has one. -/
theorem decode_exact_cut :
    let r : RecordedOutputs := ⟨[[], List.replicate 128 9]⟩
    r.Measured ∧ decode (r.encode ++ [1, 2]) = .ok r ∧ [2, 0, 128] <+: r.encode ∧
      [2, 0, 128] ≠ r.encode ∧ decode [2, 0, 128] = .error unfinished ∧
      decode [130, 0, 0, 128, 0, 5] = .ok ⟨[[], []]⟩ ∧
      (encode ⟨[[], []]⟩).length ≤ [130, 0, 0, 128, 0, 5].length := by
  intro r
  obtain ⟨hback, hcut, hany⟩ := decode_exact
  have hr : r.Measured := ⟨by decide, by decide +kernel⟩
  have hstart : [2, 0, 128] <+: r.encode := by decide +kernel
  have hne : [2, 0, 128] ≠ r.encode := by decide +kernel
  have hspelled : decode [130, 0, 0, 128, 0, 5] = .ok ⟨[[], []]⟩ := by rfl
  exact ⟨hr, hback r hr _, hstart, hne, hcut r hr _ hstart hne, hspelled,
    (hany _).2 _ hspelled⟩

end Dataflow.RecordedOutputs

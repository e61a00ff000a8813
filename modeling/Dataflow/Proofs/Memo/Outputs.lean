import Dataflow.Memo.Outputs

/-!
# Memoized outputs are read back

The outputs of a transform, once written as a value, are read back in order. Their number and their
lengths have to fit 64 bits, which they do if the whole value is not longer than 64 bits can say.

* `RecordedOutputs.decodeOutput_encodeOutput`: one output.
* `RecordedOutputs.decodeOutputs_flatMap`: outputs behind each other.
* `RecordedOutputs.decode_encode`: a value.
-/

namespace Dataflow

theorem Varint.length_encode_pos (n : Nat) : 0 < (encode n).length := by
  rw [encode]
  split <;> simp

namespace RecordedOutputs

theorem decodeOutput_encodeOutput {bytes : Bytes} (rest : Bytes)
    (h : bytes.length < Bytes.capacity 8) :
    decodeOutput (encodeOutput bytes ++ rest) = .ok (bytes, rest) := by
  rw [decodeOutput, encodeOutput, List.append_assoc, Varint.decode_encode _ h]
  dsimp only
  rw [List.take_left, List.drop_left, if_neg (Nat.lt_irrefl _)]

theorem decodeOutputs_flatMap {outputs : List Bytes} (read : List Bytes) (rest : Bytes)
    (h : ∀ bytes ∈ outputs, bytes.length < Bytes.capacity 8) :
    decodeOutputs outputs.length read (outputs.flatMap encodeOutput ++ rest) =
      .ok (read.reverse ++ outputs) := by
  induction outputs generalizing read with
  | nil => rw [List.append_nil, List.length_nil, decodeOutputs]
  | cons bytes outputs ih =>
    obtain ⟨hbytes, houtputs⟩ := List.forall_mem_cons.mp h
    rw [List.length_cons, decodeOutputs, List.flatMap_cons, List.append_assoc,
      decodeOutput_encodeOutput _ hbytes]
    dsimp only
    rw [ih _ houtputs, List.reverse_cons, List.append_assoc, List.singleton_append]

theorem length_le_flatMap (outputs : List Bytes) :
    outputs.length ≤ (outputs.flatMap encodeOutput).length := by
  induction outputs with
  | nil => exact Nat.zero_le _
  | cons bytes outputs ih =>
    have hpos := Varint.length_encode_pos bytes.length
    simp only [List.flatMap_cons, encodeOutput, List.length_append, List.length_cons]
    omega

theorem length_le_encode_of_mem {r : RecordedOutputs} {bytes : Bytes} (h : bytes ∈ r.outputs) :
    bytes.length ≤ r.encode.length := by
  obtain ⟨before, after, hsplit⟩ := List.append_of_mem h
  simp only [encode, hsplit, List.flatMap_append, List.flatMap_cons, encodeOutput,
    List.length_append]
  omega

/-- Outputs that were written are read back. -/
theorem decode_encode {r : RecordedOutputs} (h : r.encode.length < Bytes.capacity 8) :
    decode r.encode = .ok r := by
  have hcount : r.outputs.length < Bytes.capacity 8 := by
    have hle := length_le_flatMap r.outputs
    rw [encode, List.length_append] at h
    omega
  have houtputs : ∀ bytes ∈ r.outputs, bytes.length < Bytes.capacity 8 := fun bytes hbytes =>
    Nat.lt_of_le_of_lt (length_le_encode_of_mem hbytes) h
  have hread := decodeOutputs_flatMap [] [] houtputs
  rw [List.append_nil] at hread
  rw [decode, encode, Varint.decode_encode _ hcount]
  dsimp only
  rw [hread]
  rfl

end RecordedOutputs

end Dataflow

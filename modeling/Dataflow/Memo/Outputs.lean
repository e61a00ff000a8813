import Dataflow.Bytes.Varint
import Dataflow.Error

/-!
# Memoized outputs

The outputs of a transform as one value of the checkpoint log: their number, then each output after
its length, all numbers of variable length.

* `RecordedOutputs`: the outputs.
* `RecordedOutputs.encode`, `RecordedOutputs.decode`: the two directions.
-/

namespace Dataflow

/-- The outputs of a transform, in order. -/
structure RecordedOutputs where
  outputs : List Bytes
  deriving DecidableEq, Repr

namespace RecordedOutputs

/-- A byte string after its length. -/
def encodeOutput (bytes : Bytes) : Bytes := Varint.encode bytes.length ++ bytes

/-- The outputs after their number. -/
def encode (r : RecordedOutputs) : Bytes :=
  Varint.encode r.outputs.length ++ r.outputs.flatMap encodeOutput

/-- Read a byte string after its length, leaving the bytes after it. -/
def decodeOutput (bytes : Bytes) : Except DecodeError (Bytes × Bytes) :=
  match Varint.decode bytes with
  | .error e => .error e
  | .ok (length, rest) =>
    let output := rest.take length
    if output.length < length then .error .endOfBuffer else .ok (output, rest.drop length)

/-- Read a number of outputs behind those that have been read, the last of which is in front. -/
def decodeOutputs : (count : Nat) → (read : List Bytes) → Bytes → Except DecodeError (List Bytes)
  | 0, read, _ => .ok read.reverse
  | count + 1, read, bytes =>
    match decodeOutput bytes with
    | .error e => .error e
    | .ok (output, rest) => decodeOutputs count (output :: read) rest

/-- Read outputs. Bytes after the last of them do not matter. -/
def decode (bytes : Bytes) : Except Error RecordedOutputs :=
  match Varint.decode bytes with
  | .error e => .error (.internal (.undecodable e))
  | .ok (count, rest) =>
    match decodeOutputs count [] rest with
    | .error e => .error (.internal (.undecodable e))
    | .ok outputs => .ok ⟨outputs⟩

end RecordedOutputs

end Dataflow

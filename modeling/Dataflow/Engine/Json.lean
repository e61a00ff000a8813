import Dataflow.Engine.Basic
import Dataflow.Json.Identifiers
import Dataflow.Memo.Outputs

/-!
# JSON forms of the engine's records

The form of `DatumStatus`, `Backing`, `Stage`, `Rule`, `EngineCounts` and
`RecordedOutputs`. In a rule all fields but the name may be missing.
-/

namespace Dataflow

open Json

namespace DatumStatus

def jsonName : DatumStatus → String
  | unset => "unset"
  | set => "set"

def ofJsonName? : String → Option DatumStatus
  | "unset" => some unset
  | "set" => some set
  | _ => none

instance : Form DatumStatus where
  toValue s := Value.ofString s.jsonName
  ofValue? := Value.ofUnit? ofJsonName?

end DatumStatus

namespace Backing

def toValue : Backing → Value
  | memory => Value.ofString "memory"
  | file path => Value.ofFields [("file", Value.ofString path)]

def ofValue? (v : Value) : Option Backing :=
  match v.variant? with
  | some ("file", some content) => content.string?.map file
  | some ("memory", none) | some ("memory", some .null) => some memory
  | _ => none

instance : Form Backing := ⟨toValue, ofValue?⟩

end Backing

namespace Stage

def jsonName : Stage → String
  | waiting => "waiting"
  | ready => "ready"
  | complete => "complete"

def ofJsonName? : String → Option Stage
  | "waiting" => some waiting
  | "ready" => some ready
  | "complete" => some complete
  | _ => none

instance : Form Stage where
  toValue s := Value.ofString s.jsonName
  ofValue? := Value.ofUnit? ofJsonName?

end Stage

namespace Rule

/-- The names of the fields in JSON, in order. -/
def fieldNames : List String := ["name", "executor", "inputs", "outputs"]

def idsToValue (ids : List DatumId) : Value := .array (ids.map Form.toValue)

def idsOfValue? : Value → Option (List DatumId) := Value.items? Form.ofValue?

def toValue (r : Rule) : Value :=
  Value.ofFields [
    ("name", Value.ofString r.name),
    ("executor", Value.ofString r.executor),
    ("inputs", idsToValue r.inputs),
    ("outputs", idsToValue r.outputs)]

def ofValue? (v : Value) : Option Rule :=
  match v.fields? fieldNames with
  | some [name, executor, inputs, outputs] => do
    let name ← Value.required Value.string? name
    let executor ← Value.withDefault "" Value.string? executor
    let inputs ← Value.withDefault [] idsOfValue? inputs
    let outputs ← Value.withDefault [] idsOfValue? outputs
    return { name, executor, inputs, outputs }
  | _ => none

instance : Form Rule := ⟨toValue, ofValue?⟩

end Rule

namespace EngineCounts

/-- The names of the fields in JSON, in order. -/
def fieldNames : List String :=
  ["datums", "datums_set", "transforms", "waiting", "queued", "completed"]

/-- The counts in the order of the names. -/
def toCounts (s : EngineCounts) : List Nat :=
  [s.datums, s.datumsSet, s.transforms, s.waiting, s.queued, s.completed]

/-- The statistics with the given counts. -/
def ofCounts? : List Nat → Option EngineCounts
  | [datums, datumsSet, transforms, waiting, queued, completed] =>
    some { datums, datumsSet, transforms, waiting, queued, completed }
  | _ => none

instance : Form EngineCounts where
  toValue s := Value.ofFields (fieldNames.zip (s.toCounts.map Value.ofNat))
  ofValue? v := do
    let fields ← v.fields? fieldNames
    let counts ← fields.mapM (Value.required (Value.natural? Value.bound64))
    ofCounts? counts

end EngineCounts

namespace RecordedOutputs

def bytesToValue (bytes : Bytes) : Value := .array (bytes.map fun b => Value.ofNat b.toNat)

def bytesOfValue? : Value → Option Bytes :=
  Value.items? fun v => (v.natural? 256).map UInt8.ofNat

instance : Form RecordedOutputs where
  toValue r := Value.ofFields [("outputs", .array (r.outputs.map bytesToValue))]
  ofValue? v :=
    match v.fields? ["outputs"] with
    | some [outputs] =>
      (Value.required (Value.items? bytesOfValue?) outputs).map RecordedOutputs.mk
    | _ => none

end RecordedOutputs

end Dataflow

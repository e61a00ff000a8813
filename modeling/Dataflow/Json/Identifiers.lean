import Dataflow.Error
import Dataflow.Json.Form

/-!
# JSON forms of identifiers and error kinds

Identifiers are bare numbers of 64 bits. Error kinds are names.
-/

namespace Dataflow

open Json

namespace OutcomeKind

def jsonName : OutcomeKind → String
  | success => "Success"
  | outOfMemory => "Oom"
  | doubleWrite => "DoubleWrite"
  | notFound => "NotFound"
  | command => "Command"
  | unknown => "Unknown"

def ofJsonName? : String → Option OutcomeKind
  | "Success" => some success
  | "Oom" => some outOfMemory
  | "DoubleWrite" => some doubleWrite
  | "NotFound" => some notFound
  | "Command" => some command
  | "Unknown" => some unknown
  | _ => none

instance : Form OutcomeKind where
  toValue k := Value.ofString k.jsonName
  ofValue? := Value.ofUnit? ofJsonName?

end OutcomeKind

instance : Form DatumId where
  toValue id := Value.ofNat id.number
  ofValue? v := (v.natural? Value.bound64).map DatumId.mk

instance : Form TransformId where
  toValue id := Value.ofNat id.number
  ofValue? v := (v.natural? Value.bound64).map TransformId.mk

instance : Form SequenceNumber where
  toValue s := Value.ofNat s.number
  ofValue? v := (v.natural? Value.bound64).map SequenceNumber.mk

end Dataflow

import Dataflow.Json.Form
import Dataflow.Log.Basic

/-!
# JSON forms of the log's records

* The form of `FlushPolicy`, `LogSettings`, `LogStats` and `Durability`. All fields of the
  settings may be missing and then have their defaults.
* `LogSettings.ofJson`: the settings of a text, which are validated.
-/

namespace Dataflow

open Json

namespace Durability

def jsonName : Durability → String
  | persist => "Persist"
  | transient => "Transient"

def ofJsonName? : String → Option Durability
  | "Persist" => some persist
  | "Transient" => some transient
  | _ => none

instance : Form Durability where
  toValue p := Value.ofString p.jsonName
  ofValue? := Value.ofUnit? ofJsonName?

end Durability

namespace FlushPolicy

def toValue : FlushPolicy → Value
  | noFlush => Value.ofString "no_flush"
  | alwaysFlush => Value.ofString "always_flush"
  | periodic n => Value.ofFields [("periodic", Value.ofNat n)]

/-- Read a flush policy. A period fits four bytes. -/
def ofValue? (v : Value) : Option FlushPolicy :=
  match v.variant? with
  | some ("periodic", some content) => (content.natural? (Bytes.capacity 4)).map periodic
  | some ("no_flush", none) | some ("no_flush", some .null) => some noFlush
  | some ("always_flush", none) | some ("always_flush", some .null) => some alwaysFlush
  | _ => none

instance : Form FlushPolicy := ⟨toValue, ofValue?⟩

end FlushPolicy

namespace LogSettings

/-- The names of the fields in JSON, in order. -/
def fieldNames : List String := ["path", "flush_policy", "max_index_entries"]

def toValue (c : LogSettings) : Value :=
  Value.ofFields [
    ("path", Value.ofString c.path),
    ("flush_policy", c.flushPolicy.toValue),
    ("max_index_entries", Value.ofNat c.maxIndexEntries)]

def ofValue? (v : Value) : Option LogSettings :=
  let standard : LogSettings := {}
  match v.fields? fieldNames with
  | some [path, flushPolicy, maxIndexEntries] => do
    let path ← Value.withDefault standard.path Value.string? path
    let flushPolicy ← Value.withDefault standard.flushPolicy FlushPolicy.ofValue? flushPolicy
    let maxIndexEntries ←
      Value.withDefault standard.maxIndexEntries (Value.natural? Value.bound64) maxIndexEntries
    return { path, flushPolicy, maxIndexEntries }
  | _ => none

instance : Form LogSettings := ⟨toValue, ofValue?⟩

/-- The settings that a text stands for, if a log accepts them. -/
def ofJson (text : String) : Except Error LogSettings :=
  match (read? text : Option LogSettings) with
  | none => .error (.command .malformedSettings)
  | some c => c.validate.map fun _ => c

end LogSettings

namespace LogStats

/-- The names of the fields in JSON, in order. -/
def fieldNames : List String :=
  ["records_replayed", "records_written", "bytes_truncated", "index_entries", "index_capacity",
   "evictions", "lookups", "scans", "log_bytes", "next_sequence"]

/-- The counts in the order of the names. -/
def toCounts (s : LogStats) : List Nat :=
  [s.recordsReplayed, s.recordsWritten, s.bytesTruncated, s.indexEntries, s.indexCapacity,
   s.evictions, s.lookups, s.scans, s.logBytes, s.nextSequence]

/-- The statistics with the given counts. -/
def ofCounts? : List Nat → Option LogStats
  | [recordsReplayed, recordsWritten, bytesTruncated, indexEntries, indexCapacity, evictions,
      lookups, scans, logBytes, nextSequence] =>
    some { recordsReplayed, recordsWritten, bytesTruncated, indexEntries, indexCapacity,
           evictions, lookups, scans, logBytes, nextSequence }
  | _ => none

instance : Form LogStats where
  toValue s := Value.ofFields (fieldNames.zip (s.toCounts.map Value.ofNat))
  ofValue? v := do
    let fields ← v.fields? fieldNames
    let counts ← fields.mapM (Value.required (Value.natural? Value.bound64))
    ofCounts? counts

end LogStats

end Dataflow

import Dataflow.Log.Basic

/-!
# Reading a log

A key is looked for in the index first. If the index has had to evict keys, a key that it does not
have is looked for in the whole log, and among several records of the key the one with the
greatest sequence number counts, the last of them if there is a tie.

* `Log.scan`: the search through the whole log.
* `Log.find`: index first, then the log.
* `Log.lookup`, `Log.contains`: what callers ask.
-/

namespace Dataflow.Log

variable {σ : Type} [Store σ]

/-- The extent of the newest of some frames with a key. -/
def newest? (key : Bytes) (frames : List PlacedFrame) : Option Extent :=
  frames.foldl (fun found f =>
    if f.frame.key = key then
      match found with
      | none => some f.extent
      | some best =>
        if best.sequence.number ≤ f.frame.header.sequence.number then some f.extent else some best
    else
      found) none

/-- Read the whole log for the newest record of a key. Any frame that cannot be read is an error,
since it might be a record of the key. -/
def scan (log : Log σ) (key : Bytes) : Except Error (Option Extent) × Log σ :=
  match Frame.survey log.store with
  | (⟨frames, none⟩, s) => (.ok (newest? key frames), { log with store := s })
  | (⟨_, some (offset, e)⟩, s) => (.error (e.at offset), { log with store := s })

/-- Where the newest record of a key lies. Finding it in the index is a use of the key. -/
def find (log : Log σ) (key : Bytes) : Except Error (Option Extent) × Log σ :=
  match log.index.get key with
  | (some extent, index) => (.ok (some extent), { log with index := index })
  | (none, _) =>
    if log.index.isPartial then
      { log with scans := log.scans + 1 }.scan key
    else
      (.ok none, log)

def valueAt (log : Log σ) (extent : Extent) : Except Error Bytes × Log σ :=
  match Frame.read log.store extent.offset (extent.offset + extent.length) with
  | (.error e, s) => (.error (e.at extent.offset), { log with store := s })
  | (.ok frame, s) => (.ok frame.value, { log with store := s })

/-- The value of a key. A key that had to be looked for in the log returns to the index. -/
def lookup (log : Log σ) (key : Bytes) : Except Error Bytes × Log σ :=
  let log := { log with lookups := log.lookups + 1 }
  if log.poisoned then
    (.error poisonedError, log)
  else
    let indexed := log.index.contains key
    match log.find key with
    | (.error e, log) => (.error e, log)
    | (.ok none, log) => (.error (.notFound (.logKey key)), log)
    | (.ok (some extent), log) =>
      match log.valueAt extent with
      | (.error e, log) => (.error e, log)
      | (.ok value, log) =>
        if indexed then
          (.ok value, log)
        else
          (.ok value, { log with index := (log.index.insert key extent).2 })

def contains (log : Log σ) (key : Bytes) : Except Error Bool × Log σ :=
  if log.poisoned then
    (.error poisonedError, log)
  else
    match log.find key with
    | (.error e, log) => (.error e, log)
    | (.ok found, log) => (.ok found.isSome, log)

end Dataflow.Log

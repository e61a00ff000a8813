import Dataflow.Frame.Reading
import Dataflow.Log.Settings
import Dataflow.Log.RecencyIndex

/-!
# The checkpoint log

A checkpoint log maps keys to values and keeps them as records in a store, one after another. The
newest record of a key holds its value.

* `Log`: the state of an open log.
* `LogStats`, `Log.stats`: what it counts.
* `Frame.survey`: the frames of a store from front to back.
-/

namespace Dataflow

/-! ## State -/

/-- An open checkpoint log over a store. -/
structure Log (σ : Type) where
  settings : LogSettings
  store : σ
  index : RecencyIndex
  nextSequence : SequenceNumber
  /-- The records that were appended since the last flush. Only a periodic policy reads this number,
  and under one it stays below the period (`unflushed_lt` of `Log.Bounded`). So it has no width of
  its own. -/
  unflushedRecords : Nat := 0
  /-- The records that were there when the log was opened. -/
  recordsReplayed : Nat := 0
  recordsWritten : Nat := 0
  /-- The bytes that were cut off when the log was opened. -/
  bytesTruncated : Nat := 0
  lookups : Nat := 0
  /-- The times that the whole log was read because the index did not have a key. -/
  scans : Nat := 0
  /-- A call was broken off while it held the log. -/
  poisoned : Bool := false

/-- What a log counts. -/
structure LogStats where
  recordsReplayed : Nat
  recordsWritten : Nat
  bytesTruncated : Nat
  indexEntries : Nat
  indexCapacity : Nat
  evictions : Nat
  lookups : Nat
  scans : Nat
  logBytes : Nat
  nextSequence : Nat
  deriving DecidableEq, Repr

namespace Log

variable {σ : Type} [Store σ]

/-- A poisoned log answers every call with this error. -/
def poisonedError : Error := .internal .logPoisoned

/-- What the log counts. -/
def stats (log : Log σ) : Except Error LogStats :=
  if log.poisoned then
    .error poisonedError
  else
    .ok {
      recordsReplayed := log.recordsReplayed
      recordsWritten := log.recordsWritten
      bytesTruncated := log.bytesTruncated
      indexEntries := log.index.size
      indexCapacity := log.index.capacity
      evictions := log.index.evictions
      lookups := log.lookups
      scans := log.scans
      logBytes := Store.size log.store
      nextSequence := log.nextSequence.number }

end Log

/-! ## The frames of a store -/

/-- A frame and the offset at which it starts. -/
structure PlacedFrame where
  offset : Nat
  frame : Frame
  deriving DecidableEq, Repr

namespace PlacedFrame

def extent (f : PlacedFrame) : Extent :=
  ⟨f.offset, f.frame.header.frameLength, f.frame.header.sequence⟩

/-- The offset after the frame. -/
def endOffset (f : PlacedFrame) : Nat := f.offset + f.frame.header.frameLength

end PlacedFrame

/-- The frames that could be read, and what stopped the reading before the limit. -/
structure Survey where
  frames : List PlacedFrame
  /-- The offset and the error of the first frame that could not be read. -/
  stop : Option (Nat × FrameFault)
  deriving DecidableEq, Repr

namespace Frame

variable {σ : Type} [Store σ]

/-- Read frames from an offset to a limit; `fuel` bounds their number. -/
def surveyFrom : (fuel : Nat) → σ → (offset limit : Nat) → Survey × σ
  | 0, s, _, _ => (⟨[], none⟩, s)
  | fuel + 1, s, offset, limit =>
    if limit ≤ offset then
      (⟨[], none⟩, s)
    else
      match read s offset limit with
      | (.error e, s) => (⟨[], some (offset, e)⟩, s)
      | (.ok frame, s) =>
        let placed : PlacedFrame := ⟨offset, frame⟩
        let (rest, s) := surveyFrom fuel s placed.endOffset limit
        (⟨placed :: rest.frames, rest.stop⟩, s)

/-- Read all frames of a store. Every frame has bytes, so their number is bounded by those. -/
def survey (s : σ) : Survey × σ := surveyFrom (Store.size s) s 0 (Store.size s)

end Frame

end Dataflow

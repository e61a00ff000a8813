import Dataflow.Log.Basic

/-!
# Opening and releasing a log

An opened log replays the frames of its store from front to back. A damaged tail, such as a record
that a crash has cut short, is cut off; a store that cannot be read is left alone.

* `Log.open`: opens a log over a store. A refusal hands the store back.
* `Log.release`: gives the store of a log back without flushing it.
-/

namespace Dataflow.Log

variable {σ : Type} [Store σ]

/-- Let the index learn where the records of some frames lie. -/
def replay (index : RecencyIndex) (frames : List PlacedFrame) : RecencyIndex :=
  frames.foldl (fun index f => (index.insert f.frame.key f.extent).2) index

def lastSequence (frames : List PlacedFrame) : SequenceNumber :=
  frames.foldl (fun last f => last.max f.frame.header.sequence) .zero

/-- The log over a store whose frames have been read, some bytes having been cut off. -/
def ofFrames (settings : LogSettings) (frames : List PlacedFrame) (bytesTruncated : Nat) (s : σ) :
    Log σ where
  settings := settings
  store := s
  index := replay (RecencyIndex.ofCapacity settings.maxIndexEntries) frames
  nextSequence := (lastSequence frames).next
  recordsReplayed := frames.length
  bytesTruncated := bytesTruncated

def «open» (settings : LogSettings) (s : σ) : Except (Error × σ) (Log σ) :=
  match settings.validate with
  | .error e => .error (e, s)
  | .ok () =>
    let size := Store.size s
    match Frame.survey s with
    | (⟨frames, none⟩, s) => .ok (ofFrames settings frames 0 s)
    | (⟨frames, some (offset, e)⟩, s) =>
      if e.meansDamage then
        match Store.truncate s offset with
        | (.error e, s) => .error (.io .truncateTail e, s)
        | (.ok (), s) => .ok (ofFrames settings frames (size - offset) s)
      else
        .error (e.at offset, s)

/-- Give the store back without flushing it. A poisoned log answers with its error. -/
def release (log : Log σ) : Except Error Unit × σ :=
  (if log.poisoned then .error poisonedError else .ok (), log.store)

end Dataflow.Log

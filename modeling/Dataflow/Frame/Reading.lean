import Dataflow.Frame.Basic
import Dataflow.Store.Basic

/-!
# Reading frames from a store

A frame is read at an offset and has to end before a limit. First the header is read, then the
whole frame, so that a store which fails or lies between the two reads is noticed.

* `Frame.headerAt`, `Frame.read`: the two steps.
-/

namespace Dataflow.Frame

variable {σ : Type} [Store σ]

def headerAt (s : σ) (offset limit : Nat) : Except FrameFault Header × σ :=
  let available := limit - offset
  if available < headerLength then
    (.error (.damaged (.torn headerLength available)), s)
  else
    match Store.readAt s offset headerLength with
    | (.error e, s) => (.error (.unreadable e), s)
    | (.ok bytes, s) => ((Header.parse bytes).mapError .damaged, s)

def read (s : σ) (offset limit : Nat) : Except FrameFault Frame × σ :=
  match headerAt s offset limit with
  | (.error e, s) => (.error e, s)
  | (.ok header, s) =>
    let available := limit - offset
    if available < header.frameLength then
      (.error (.damaged (.torn header.frameLength available)), s)
    else
      match Store.readAt s offset header.frameLength with
      | (.error e, s) => (.error (.unreadable e), s)
      | (.ok bytes, s) => ((verify header bytes).mapError .damaged, s)

end Dataflow.Frame

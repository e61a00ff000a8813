import Dataflow.Rule

/-!
# Transforms

A transform is a rule that has been registered. It counts the inputs that are not set, by position,
and is ready once that count is zero.

* `Transform`: a registered rule and how far it has come.
* `Transform.countDown`: one more input is set.
-/

namespace Dataflow

/-- How far a transform has come. -/
inductive Stage
  | waiting
  | ready
  | complete
  deriving DecidableEq, Repr

/-- A registered rule. -/
structure Transform where
  id : TransformId
  rule : Rule
  /-- The inputs that are not set, counted by position. -/
  pending : Nat
  stage : Stage
  deriving DecidableEq, Repr

namespace Transform

/-- A rule that is registered while some of its inputs are not set. -/
def register (id : TransformId) (rule : Rule) (pending : Nat) : Transform where
  id := id
  rule := rule
  pending := pending
  stage := if pending = 0 then .ready else .waiting

/-- The transform becomes ready when one more of its inputs is set. -/
def becomesReady (t : Transform) : Bool := t.pending == 1

/-- One more input is set. -/
def countDown (t : Transform) : Transform :=
  { t with
    pending := t.pending - 1
    stage := if t.becomesReady then .ready else t.stage }

def finished (t : Transform) : Transform := { t with stage := .complete }

end Transform

end Dataflow

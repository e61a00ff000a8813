import Dataflow.Error

/-!
# Datums

A datum is a place for a value that is written once. Until then it remembers which transforms wait
for it.

* `Datum`: the place.
* `Datum.fill`: writes the value and names the transforms that waited.
-/

namespace Dataflow

/-- Whether a datum has its value. -/
inductive DatumStatus
  | unset
  | set
  deriving DecidableEq, Repr

/-- Where the value of a datum lives outside the engine. -/
inductive Backing
  | memory
  | file (path : String)
  deriving DecidableEq, Repr

/-- A place for a value that is written once. -/
structure Datum where
  id : DatumId
  backing : Backing
  value : Option Bytes := none
  /-- The transforms that wait for the value, once for each of their inputs that is this datum. -/
  waiters : List TransformId := []
  /-- How many inputs and outputs of live transforms are this datum. -/
  uses : Nat := 0
  deriving DecidableEq, Repr

namespace Datum

def isSet (d : Datum) : Bool := d.value.isSome

/-- Whether the datum has its value. -/
def status (d : Datum) : DatumStatus := if d.isSet then .set else .unset

/-- The path of a datum that is bound to a file. -/
def path? (d : Datum) : Option String :=
  match d.backing with
  | .memory => none
  | .file path => some path

/-- Write the value. The transforms that waited for it come first. -/
def fill (d : Datum) (value : Bytes) : List TransformId × Datum :=
  (d.waiters, { d with value := some value, waiters := [] })

/-- Let a transform wait for the value, unless it is there. -/
def await (d : Datum) (id : TransformId) : Datum :=
  if d.isSet then d else { d with waiters := d.waiters ++ [id] }

/-- Count one more use. -/
def addUse (d : Datum) : Datum := { d with uses := d.uses + 1 }

/-- Count one use less. -/
def dropUse (d : Datum) : Datum := { d with uses := d.uses - 1 }

end Datum

end Dataflow

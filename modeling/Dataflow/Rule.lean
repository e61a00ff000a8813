import Dataflow.Error
import Dataflow.Text.Blank

/-!
# Rules

A rule says what a transform is to be: its name, what carries it out, the datums that it reads and
those that it writes.

* `Rule`: what a caller asks for.
* `Rule.validate`: what is refused, whatever datums there are.
-/

namespace Dataflow

/-- The description of a transform. -/
structure Rule where
  name : String
  /-- What is to carry the transform out; the engine does not look at it. -/
  executor : String := ""
  inputs : List DatumId := []
  outputs : List DatumId := []
  deriving DecidableEq, Repr

/-- The first member of a list that stands in it before, or among those already seen. -/
def firstRepeated (seen : List DatumId) : List DatumId → Option DatumId
  | [] => none
  | d :: rest => if d ∈ seen then some d else firstRepeated (d :: seen) rest

/-- A name must show something, and no output may be listed twice. -/
def Rule.validate (rule : Rule) : Except Error Unit :=
  if isBlankText rule.name then
    .error (.command .blankName)
  else
    match firstRepeated [] rule.outputs with
    | some output => .error (.command (.repeatedOutput rule.name output))
    | none => .ok ()

end Dataflow

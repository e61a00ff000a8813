import Dataflow.Bytes
import Dataflow.Json.Reader

/-!
# Forms of types in JSON

A type with a JSON form has a value for each of its members and reads values back. Records are
written as objects with their fields in order; they may be read from an object, whose unknown
members are skipped, or from an array of the fields in order. A variant without content is written
as its name; one with content as an object with a single member.

* `Form`: the class.
* `print`, `read?`: from and to text.
* `Value.natural?`, `Value.string?`, `Value.items?`, `Value.fields?`, `Value.variant?`: what the
  readers of forms are made of.
-/

namespace Dataflow.Json

/-- A type with a form in JSON. -/
class Form (α : Type) where
  toValue : α → Value
  ofValue? : Value → Option α

def print {α : Type} [Form α] (a : α) : String := (Form.toValue a).render

def read? {α : Type} [Form α] (s : String) : Option α := (Value.parse? s).bind Form.ofValue?

namespace Value

/-! ## Building values -/

def ofNat (n : Nat) : Value := .number (.natural n)

def ofString (s : String) : Value := .text (Text.ofString s)

def ofFields (fields : List (String × Value)) : Value :=
  .object (fields.map fun f => (Text.ofString f.1, f.2))

/-! ## Reading values -/

/-- The numbers below this bound fit 64 bits. -/
def bound64 : Nat := Bytes.capacity 8

/-- A natural number below a bound. -/
def natural? (bound : Nat) : Value → Option Nat
  | .number (.natural n) => if n < bound then some n else none
  | _ => none

def string? : Value → Option String
  | .text t => t.toString?
  | _ => none

def items? {α : Type} (item? : Value → Option α) : Value → Option (List α)
  | .array items => items.mapM item?
  | _ => none

/-- The members of an object, whose names must be strings. -/
def members? (members : List (Text × Value)) : Option (List (String × Value)) :=
  members.mapM fun m => m.1.toString?.map (·, m.2)

/-- The member with a name, which must not occur twice. -/
def member? (members : List (String × Value)) (name : String) : Option (Option Value) :=
  match members.filter (·.1 == name) with
  | [] => some none
  | [m] => some (some m.2)
  | _ => none

/-- The fields of a record, of which some may be missing. -/
def fields? (names : List String) : Value → Option (List (Option Value))
  | .object members => (members? members).bind fun members => names.mapM (member? members)
  | .array items =>
    if items.length ≤ names.length then
      some (items.map some ++ List.replicate (names.length - items.length) none)
    else
      none
  | _ => none

def variant? : Value → Option (String × Option Value)
  | .text t => t.toString?.map (·, none)
  | .object [(name, content)] => name.toString?.map (·, some content)
  | _ => none

/-- The variant without content that has a name. Its content may be written as `null`. -/
def ofUnit? {α : Type} (named? : String → Option α) (v : Value) : Option α :=
  match v.variant? with
  | some (name, none) => named? name
  | some (name, some .null) => named? name
  | _ => none

/-- A field that must not be missing. -/
def required {α : Type} (read : Value → Option α) (field : Option Value) : Option α :=
  field.bind read

def withDefault {α : Type} (default : α) (read : Value → Option α) : Option Value → Option α
  | none => some default
  | some v => read v

end Value

end Dataflow.Json

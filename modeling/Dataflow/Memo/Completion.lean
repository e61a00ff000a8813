import Dataflow.Engine.Basic
import Dataflow.Log.Writing
import Dataflow.Memo.Key
import Dataflow.Memo.Outputs

/-!
# Completion with kept outputs

A ready transform is completed with its outputs in one of two ways: they are recorded in a
checkpoint log and then set, or they are found there and set, so that the transform need not be
carried out.

* `Engine.outputsKey`: the key of a ready transform.
* `Engine.record`: records, sets and completes.
* `Engine.reuse`: finds, sets and completes.
-/

namespace Dataflow.Engine

variable {σ : Type} [Store σ]

def inputValues (e : Engine) (t : Transform) : Except Error (List Bytes) :=
  t.rule.inputs.mapM fun input =>
    match e.datumValue input with
    | .error err => .error err
    | .ok none => .error (.command (.inputUnset input t.id))
    | .ok (some value) => .ok value

/-- The key under which the outputs of a transform are kept. -/
def outputsKey (e : Engine) (id : TransformId) : Except Error Bytes :=
  match e.transform id with
  | .error err => .error err
  | .ok t =>
    if t.stage = .waiting then
      .error (.command (.noKeyYet id))
    else
      (e.inputValues t).map (Memo.key t.rule.name)

/-- The outputs exist and none of them is set. -/
def checkUnset (e : Engine) : List DatumId → Except Error Unit
  | [] => .ok ()
  | output :: rest =>
    match e.datumStatus output with
    | .error err => .error err
    | .ok .set => .error (.doubleWrite (.datum output))
    | .ok .unset => e.checkUnset rest

/-- The outputs of a transform, which must be as many as the values for them, and unset. -/
def unsetOutputs (e : Engine) (id : TransformId) (count : Nat) : Except Error (List DatumId) :=
  match e.transform id with
  | .error err => .error err
  | .ok t =>
    if t.rule.outputs.length ≠ count then
      .error (.command (.outputCount id t.rule.outputs.length count))
    else
      (e.checkUnset t.rule.outputs).map fun _ => t.rule.outputs

/-- Set datums one after another, up to the first that refuses. -/
def setDatums (e : Engine) : List (DatumId × Bytes) → Except Error Unit × Engine
  | [] => (.ok (), e)
  | (id, value) :: rest =>
    match e.setDatum id value with
    | (.error err, e) => (.error err, e)
    | (.ok (), e) => e.setDatums rest

/-- Set the outputs of a transform and complete it. -/
def settle (e : Engine) (id : TransformId) (values : List Bytes) :
    Except Error Transform × Engine :=
  match e.unsetOutputs id values.length with
  | .error err => (.error err, e)
  | .ok outputs =>
    match e.setDatums (outputs.zip values) with
    | (.error err, e) => (.error err, e)
    | (.ok (), e) => e.complete id

/-- Record the outputs of a transform, set them and complete it. -/
def record (e : Engine) (log : Log σ) (id : TransformId) (outputs : List Bytes)
    (durability : Durability) : Except (Failure Error) Transform × Engine × Log σ :=
  match e.outputsKey id with
  | .error err => (.error (.reported err), e, log)
  | .ok key =>
    match e.unsetOutputs id outputs.length with
    | .error err => (.error (.reported err), e, log)
    | .ok _ =>
      match log.write key (RecordedOutputs.encode ⟨outputs⟩) durability true with
      | (.error failure, log) => (.error failure, e, log)
      | (.ok _, log) =>
        let (result, e) := e.settle id outputs
        (result.mapError .reported, e, log)

/-- Complete a transform with the outputs that the log has for it. The answer is `false` if it has
none. -/
def reuse (e : Engine) (log : Log σ) (id : TransformId) :
    Except Error Bool × Engine × Log σ :=
  match e.outputsKey id with
  | .error err => (.error err, e, log)
  | .ok key =>
    match log.lookup key with
    | (.error (.notFound _), log) => (.ok false, e, log)
    | (.error err, log) => (.error err, e, log)
    | (.ok bytes, log) =>
      match RecordedOutputs.decode bytes with
      | .error err => (.error err, e, log)
      | .ok record =>
        match e.settle id record.outputs with
        | (.error err, e) => (.error err, e, log)
        | (.ok _, e) => (.ok true, e, log)

end Dataflow.Engine

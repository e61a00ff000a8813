import Dataflow.Datum
import Dataflow.Engine.DispatchQueue
import Dataflow.SortedMap
import Dataflow.Transform

/-!
# The engine

The engine holds the datums and the live transforms. Setting a datum counts down the transforms
that wait for it; one that waits for nothing more joins the ready queue. A caller takes ready
transforms, carries them out, sets their outputs and completes them.

* `Engine`: the state.
* `Engine.createDatum`, `setDatum`, `releaseDatum`: the life of a datum.
* `Engine.addRule`, `takeReady`, `complete`: the life of a transform.
* `Engine.stats`: what the engine counts.
-/

namespace Dataflow

/-- The state of an engine. -/
structure Engine where
  datums : SortedMap DatumId Datum := {}
  /-- The live transforms: registered and not yet completed. -/
  transforms : SortedMap TransformId Transform := {}
  ready : DispatchQueue := {}
  datumIds : Numbering := {}
  transformIds : Numbering := {}
  completed : Nat := 0
  deriving DecidableEq, Repr

/-- What an engine counts. -/
structure EngineCounts where
  datums : Nat
  datumsSet : Nat
  transforms : Nat
  waiting : Nat
  queued : Nat
  completed : Nat
  deriving DecidableEq, Repr

namespace Engine

def empty : Engine := {}

/-! ## Reading -/

def datum (e : Engine) (id : DatumId) : Except Error Datum :=
  match e.datums.get? id with
  | some d => .ok d
  | none => .error (.notFound (.datum id))

/-- The value of a datum, if it is set. -/
def datumValue (e : Engine) (id : DatumId) : Except Error (Option Bytes) :=
  (e.datum id).map (·.value)

/-- Whether a datum is set. -/
def datumStatus (e : Engine) (id : DatumId) : Except Error DatumStatus :=
  (e.datum id).map (·.status)

/-- The live transform of an identifier. -/
def transform (e : Engine) (id : TransformId) : Except Error Transform :=
  match e.transforms.get? id with
  | some t => .ok t
  | none => .error (.notFound (.transform id))

/-- How far a live transform has come. -/
def transformStage (e : Engine) (id : TransformId) : Except Error Stage :=
  (e.transform id).map (·.stage)

/-- The live transforms in the order of their registration. -/
def liveTransforms (e : Engine) : List Transform := e.transforms.values

/-- What the engine counts. -/
def stats (e : Engine) : EngineCounts where
  datums := e.datums.size
  datumsSet := e.datums.values.countP (·.isSet)
  transforms := e.transforms.size
  waiting := e.transforms.values.countP (·.stage == .waiting)
  queued := e.ready.size
  completed := e.completed

/-! ## Datums -/

def placeDatum (e : Engine) (backing : Backing) (value : Option Bytes) :
    DatumId × Engine :=
  let (n, counter) := e.datumIds.next
  let id : DatumId := ⟨n⟩
  (id,
    { e with
      datumIds := counter
      datums := e.datums.insert id { id := id, backing := backing, value := value } })

def createDatum (e : Engine) : DatumId × Engine := e.placeDatum .memory none

/-- Create a datum that is bound to a file. -/
def createFileDatum (e : Engine) (path : String) : DatumId × Engine :=
  e.placeDatum (.file path) none

/-- Create a datum that is set. -/
def createSetDatum (e : Engine) (value : Bytes) : DatumId × Engine :=
  e.placeDatum .memory (some value)

/-- Tell a transform that one of its inputs is set. -/
def notify (e : Engine) (id : TransformId) : Engine :=
  match e.transforms.get? id with
  | none => e
  | some t =>
    let e := { e with transforms := e.transforms.modify id Transform.countDown }
    if t.becomesReady then { e with ready := (e.ready.push id).2 } else e

/-- Set a datum, once. -/
def setDatum (e : Engine) (id : DatumId) (value : Bytes) : Except Error Unit × Engine :=
  match e.datum id with
  | .error err => (.error err, e)
  | .ok d =>
    if d.isSet then
      (.error (.doubleWrite (.datum id)), e)
    else
      let (waiting, d) := d.fill value
      let e := { e with datums := e.datums.modify id fun _ => d }
      (.ok (), waiting.foldl notify e)

/-- Remove a datum that no live transform names. -/
def releaseDatum (e : Engine) (id : DatumId) : Except Error Unit × Engine :=
  match e.datum id with
  | .error err => (.error err, e)
  | .ok d =>
    if 0 < d.uses then
      (.error (.command (.stillUsed id d.uses)), e)
    else
      (.ok (), { e with datums := e.datums.erase id })

/-! ## Transforms -/

/-- The datums of some identifiers; the first that is missing is the error. -/
def datumsOf (e : Engine) (ids : List DatumId) : Except Error (List Datum) := ids.mapM e.datum

/-- Let a new transform wait for an input, and count the use. -/
def useInput (id : TransformId) (e : Engine) (input : DatumId) : Engine :=
  { e with datums := e.datums.modify input fun d => (d.await id).addUse }

/-- Count the use of a datum as an output. -/
def useOutput (e : Engine) (output : DatumId) : Engine :=
  { e with datums := e.datums.modify output Datum.addUse }

/-- Register a rule that has been checked. -/
def register (e : Engine) (rule : Rule) (pending : Nat) : TransformId × Engine :=
  let (n, counter) := e.transformIds.next
  let id : TransformId := ⟨n⟩
  let e :=
    { e with
      transformIds := counter
      transforms := e.transforms.insert id (Transform.register id rule pending) }
  let e := rule.inputs.foldl (useInput id) e
  let e := rule.outputs.foldl useOutput e
  (id, if pending = 0 then { e with ready := (e.ready.push id).2 } else e)

/-- Register a rule. Its datums have to exist. -/
def addRule (e : Engine) (rule : Rule) : Except Error TransformId × Engine :=
  match rule.validate with
  | .error err => (.error err, e)
  | .ok () =>
    match e.datumsOf rule.inputs with
    | .error err => (.error err, e)
    | .ok inputs =>
      match e.datumsOf rule.outputs with
      | .error err => (.error err, e)
      | .ok _ =>
        let (id, e) := e.register rule (inputs.countP fun d => !d.isSet)
        (.ok id, e)

/-- Hand out ready transforms, up to a number of them. -/
def takeReady (e : Engine) (max : Nat) : List TransformId × Engine :=
  let (ids, queue) := e.ready.pop max
  (ids, { e with ready := queue })

/-- Count a use of a datum less. -/
def unuse (e : Engine) (id : DatumId) : Engine :=
  { e with datums := e.datums.modify id Datum.dropUse }

/-- Complete a transform that is not waiting. It leaves the engine. -/
def complete (e : Engine) (id : TransformId) : Except Error Transform × Engine :=
  match e.transform id with
  | .error err => (.error err, e)
  | .ok t =>
    if t.stage = .waiting then
      (.error (.command (.inputsUnset id t.pending)), e)
    else
      let e :=
        { e with
          ready := (e.ready.remove id).2
          transforms := e.transforms.erase id }
      let e := (t.rule.inputs ++ t.rule.outputs).foldl unuse e
      (.ok t.finished, { e with completed := e.completed + 1 })

end Engine

end Dataflow

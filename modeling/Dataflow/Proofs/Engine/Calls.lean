import Dataflow.Memo.Completion

/-!
# Histories of an engine

What callers ask of an engine changes it in small steps: a datum is created, set or released, a rule
is added, ready transforms are handed out, a transform is completed. A transform that is completed
with recorded outputs, or with outputs that are found in a log, takes several of these steps.

* `Engine.Move`, `Engine.move`: a small step.
* `Engine.Call`, `Engine.call`, `Engine.run`: what callers ask, and a history of calls.
* `Engine.movesOf`: the small steps of a history of calls.
* `Engine.moments`: the states through which some steps lead.
-/

namespace Dataflow.Engine

/-! ## Small steps -/

/-- A small step. -/
inductive Move
  | place (backing : Backing) (value : Option Bytes)
  | set (id : DatumId) (value : Bytes)
  | release (id : DatumId)
  | add (rule : Rule)
  | take (max : Nat)
  | complete (id : TransformId)

/-- Take a step. A step that is refused changes nothing. -/
def move (e : Engine) : Move → Engine
  | .place backing value => (e.placeDatum backing value).2
  | .set id value => (e.setDatum id value).2
  | .release id => (e.releaseDatum id).2
  | .add rule => (e.addRule rule).2
  | .take max => (e.takeReady max).2
  | .complete id => (e.complete id).2

/-- The transforms that a step hands out. -/
def handsOut (e : Engine) : Move → List TransformId
  | .take max => (e.takeReady max).1
  | _ => []

/-- The state after some steps. -/
def after (e : Engine) (moves : List Move) : Engine := moves.foldl move e

/-- The states through which some steps lead, the first one included. -/
def moments (e : Engine) : List Move → List Engine
  | [] => [e]
  | m :: moves => e :: (e.move m).moments moves

/-- The transforms that some steps hand out, in order. -/
def handed (e : Engine) : List Move → List TransformId
  | [] => []
  | m :: moves => e.handsOut m ++ (e.move m).handed moves

theorem after_concat (e : Engine) (moves : List Move) (m : Move) :
    e.after (moves ++ [m]) = (e.after moves).move m := by
  rw [after, List.foldl_append]
  rfl

theorem after_append (e : Engine) (moves moves' : List Move) :
    e.after (moves ++ moves') = (e.after moves).after moves' := List.foldl_append

theorem moments_concat (e : Engine) (moves : List Move) (m : Move) :
    e.moments (moves ++ [m]) = e.moments moves ++ [e.after (moves ++ [m])] := by
  induction moves generalizing e with
  | nil => rfl
  | cons m' moves ih =>
    rw [List.cons_append, moments, ih]
    rfl

theorem handed_append (e : Engine) (moves moves' : List Move) :
    e.handed (moves ++ moves') = e.handed moves ++ (e.after moves).handed moves' := by
  induction moves generalizing e with
  | nil => rfl
  | cons m moves ih =>
    rw [List.cons_append, handed, handed, ih, List.append_assoc]
    rfl

theorem after_mem_moments (e : Engine) (moves : List Move) : e.after moves ∈ e.moments moves := by
  induction moves generalizing e with
  | nil => exact List.mem_singleton.mpr rfl
  | cons m moves ih => exact List.mem_cons_of_mem _ (ih (e.move m))

/-! ## Calls -/

/-- What callers ask of an engine. Logs may be of any kind, and a different one in every call. -/
inductive Call : Type 1
  | createDatum
  | createFileDatum (path : String)
  | createSetDatum (value : Bytes)
  | setDatum (id : DatumId) (value : Bytes)
  | releaseDatum (id : DatumId)
  | addRule (rule : Rule)
  | takeReady (max : Nat)
  | complete (id : TransformId)
  | record {σ : Type} [Store σ] (log : Log σ) (id : TransformId) (outputs : List Bytes)
    (durability : Durability)
  | reuse {σ : Type} [Store σ] (log : Log σ) (id : TransformId)

/-- Answer a call. -/
def call (e : Engine) : Call → Engine
  | .createDatum => e.createDatum.2
  | .createFileDatum path => (e.createFileDatum path).2
  | .createSetDatum value => (e.createSetDatum value).2
  | .setDatum id value => (e.setDatum id value).2
  | .releaseDatum id => (e.releaseDatum id).2
  | .addRule rule => (e.addRule rule).2
  | .takeReady max => (e.takeReady max).2
  | .complete id => (e.complete id).2
  | @Call.record _ _ log id outputs durability => (e.record log id outputs durability).2.1
  | @Call.reuse _ _ log id => (e.reuse log id).2.1

/-- The transforms that are handed out in answer to a call. -/
def answered (e : Engine) : Call → List TransformId
  | .takeReady max => (e.takeReady max).1
  | _ => []

/-- The state after some calls. -/
def run (e : Engine) (calls : List Call) : Engine := calls.foldl call e

/-- The transforms that are handed out in answer to some calls, in order. -/
def dispatched (e : Engine) : List Call → List TransformId
  | [] => []
  | c :: calls => e.answered c ++ (e.call c).dispatched calls

/-! ## The steps of a call -/

section

variable {σ : Type} [Store σ]

/-- The outputs that a log has for a transform. -/
def kept? (e : Engine) (log : Log σ) (id : TransformId) : Option (List Bytes) :=
  match e.outputsKey id with
  | .error _ => none
  | .ok key =>
    match (log.lookup key).1 with
    | .error _ => none
    | .ok bytes => (RecordedOutputs.decode bytes).toOption.map (·.outputs)

/-- The outputs of a transform have been written to a log. -/
def recorded (e : Engine) (log : Log σ) (id : TransformId) (outputs : List Bytes)
    (durability : Durability) : Bool :=
  match e.outputsKey id, e.unsetOutputs id outputs.length with
  | .ok key, .ok _ => (log.write key (RecordedOutputs.encode ⟨outputs⟩) durability true).1.isOk
  | _, _ => false

end

/-- The steps in which a transform is completed with some outputs: one for each output, in order,
and the completion. There are none if the outputs do not fit. -/
def settlement (e : Engine) (id : TransformId) (values : List Bytes) : List Move :=
  match e.unsetOutputs id values.length with
  | .error _ => []
  | .ok outputs => (outputs.zip values).map (fun p => .set p.1 p.2) ++ [.complete id]

/-- The steps of a call. -/
def moves (e : Engine) : Call → List Move
  | .createDatum => [.place .memory none]
  | .createFileDatum path => [.place (.file path) none]
  | .createSetDatum value => [.place .memory (some value)]
  | .setDatum id value => [.set id value]
  | .releaseDatum id => [.release id]
  | .addRule rule => [.add rule]
  | .takeReady max => [.take max]
  | .complete id => [.complete id]
  | @Call.record _ _ log id outputs durability =>
    if e.recorded log id outputs durability then e.settlement id outputs else []
  | @Call.reuse _ _ log id =>
    match e.kept? log id with
    | none => []
    | some values => e.settlement id values

/-- The steps of some calls. -/
def movesOf (e : Engine) : List Call → List Move
  | [] => []
  | c :: calls => e.moves c ++ (e.call c).movesOf calls

end Dataflow.Engine

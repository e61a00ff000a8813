import Dataflow.Memo.Completion

/-!
# Shared engines

Several callers can share an engine, one call at a time. A call that is broken off in the middle
may leave the engine half changed, so from then on every call is answered with an error.

* `GuardedEngine`: an engine and the mark of a broken call.
* `GuardedEngine.run`: a call.
* `GuardedEngine.breakOff`: a call that is broken off before it changes anything.
-/

namespace Dataflow

/-- An engine that callers share. -/
structure GuardedEngine where
  engine : Engine
  /-- A call has been broken off while it held the engine. -/
  poisoned : Bool := false
  deriving DecidableEq, Repr

namespace GuardedEngine

def ofEngine (e : Engine) : GuardedEngine := { engine := e }

/-- A poisoned engine answers every call with this error. -/
def poisonedError : Error := .internal .enginePoisoned

def ask {α : Type} (s : GuardedEngine) (question : Engine → Except Error α) : Except Error α :=
  if s.poisoned then .error poisonedError else question s.engine

def run {α : Type} (s : GuardedEngine) (call : Engine → Except Error α × Engine) :
    Except Error α × GuardedEngine :=
  if s.poisoned then
    (.error poisonedError, s)
  else
    let (result, e) := call s.engine
    (result, { s with engine := e })

/-- A call is broken off as soon as it holds the engine. The answer is how it ends. -/
def breakOff (s : GuardedEngine) : Failure Error × GuardedEngine :=
  if s.poisoned then (.reported poisonedError, s) else (.brokenOff, { s with poisoned := true })

variable {σ : Type} [Store σ]

/-- Record the outputs of a transform, set them and complete it. If the log's store breaks the
write off, the engine is poisoned too. -/
def record (s : GuardedEngine) (log : Log σ) (id : TransformId) (outputs : List Bytes)
    (durability : Durability) : Except (Failure Error) Transform × GuardedEngine × Log σ :=
  if s.poisoned then
    (.error (.reported poisonedError), s, log)
  else
    let (result, e, log) := s.engine.record log id outputs durability
    let brokenOff := match result with
      | .error .brokenOff => true
      | _ => false
    (result, { engine := e, poisoned := brokenOff }, log)

/-- Complete a transform with the outputs that the log has for it. -/
def reuse (s : GuardedEngine) (log : Log σ) (id : TransformId) :
    Except Error Bool × GuardedEngine × Log σ :=
  if s.poisoned then
    (.error poisonedError, s, log)
  else
    let (result, e, log) := s.engine.reuse log id
    (result, { s with engine := e }, log)

end GuardedEngine

end Dataflow

import Dataflow.Log.Writing

/-!
# Sessions with a log

A store outlives the logs that are opened on it. A session is a store on which a log may be open.
It remembers the settings of the last attempt to open one, for the next.

* `Session.start`: open a log.
* `Session.restart`: give up a log without flushing it, let something happen to what is stored,
  and open a log again.
-/

namespace Dataflow

/-- A store on which a log may be open. -/
inductive Session (σ : Type)
  | opened (log : Log σ)
  /-- No log is open; the settings are those of the last attempt. -/
  | closed (settings : LogSettings) (store : σ)

namespace Session

variable {σ : Type}

def store : Session σ → σ
  | opened log => log.store
  | closed _ s => s

def settings : Session σ → LogSettings
  | opened log => log.settings
  | closed c _ => c

def mapStore (f : σ → σ) : Session σ → Session σ
  | opened log => opened { log with store := f log.store }
  | closed c s => closed c (f s)

variable [Store σ]

def start (settings : LogSettings) (s : σ) : Except Error Unit × Session σ :=
  match Log.open settings s with
  | .error (e, s) => (.error e, closed settings s)
  | .ok log => (.ok (), opened log)

/-- Give up the log without flushing it. A poisoned log leaves an error and a closed session. -/
def release : Session σ → Except Error Unit × Session σ
  | opened log =>
    let (result, s) := log.release
    (result, closed log.settings s)
  | closed c s => (.ok (), closed c s)

/-- Give up the log, let something happen to the store, and open a log again, with new settings or
with those of the last attempt. -/
def restart (session : Session σ) (change : σ → σ) (settings? : Option LogSettings) :
    Except Error Unit × Session σ :=
  match session.release with
  | (.error e, session) => (.error e, session)
  | (.ok (), session) => start (settings?.getD session.settings) (change session.store)

end Session

end Dataflow

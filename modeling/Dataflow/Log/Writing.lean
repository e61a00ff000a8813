import Dataflow.Log.Opening
import Dataflow.Log.Reading

/-!
# Writing to a log

A record is appended, then its barrier has to be passed: a persistent record is synced, and the
flush policy may ask for a flush. Only then does the write count. If the barrier fails, the record
is cut off again, so that neither a scan nor a replay can find it; its sequence number is not used
again.

* `Log.write`: the whole of it.
* `Log.flush`, `Log.sync`: barriers that callers ask for.
* `Log.close`: a last sync, then release.
-/

namespace Dataflow

/-- What has to happen after an append before the write counts. -/
inductive Barrier
  | none
  | flush
  | sync
  deriving DecidableEq, Repr

/-- The barrier of a record, given how many records wait for a flush with it. -/
def FlushPolicy.barrier (policy : FlushPolicy) (durability : Durability) (waiting : Nat) :
    Barrier :=
  match durability, policy with
  | .persist, _ => .sync
  | .transient, .noFlush => .none
  | .transient, .alwaysFlush => .flush
  | .transient, .periodic n => if n ≤ waiting then .flush else .none

namespace Log

variable {σ : Type} [Store σ]

/-! ## Barriers -/

def flushStore (log : Log σ) : Except Error Unit × Log σ :=
  match Store.flush log.store with
  | (.error e, s) => (.error (.io .flushLog e), { log with store := s })
  | (.ok (), s) => (.ok (), { log with store := s, unflushedRecords := 0 })

/-- Sync the store; the operation is named in the error. -/
def syncStore (log : Log σ) (operation : Operation) : Except Error Unit × Log σ :=
  match Store.sync log.store with
  | (.error e, s) => (.error (.io operation e), { log with store := s })
  | (.ok (), s) => (.ok (), { log with store := s, unflushedRecords := 0 })

def pass (log : Log σ) : Barrier → Except Error Unit × Log σ
  | .none => (.ok (), log)
  | .flush => log.flushStore
  | .sync => log.syncStore .syncRecord

def flush (log : Log σ) : Except Error Unit × Log σ :=
  if log.poisoned then (.error poisonedError, log) else log.flushStore

def sync (log : Log σ) : Except Error Unit × Log σ :=
  if log.poisoned then (.error poisonedError, log) else log.syncStore .syncLog

/-- Sync a last time and give the store back, whether or not that went well. -/
def close (log : Log σ) : Except Error Unit × σ :=
  let (result, log) := log.sync
  (result, log.store)

/-! ## Writes -/

/-- The log has a record of a key. Asking for a write is no use of the key. -/
def hasKey (log : Log σ) (key : Bytes) : Except Error Bool × Log σ :=
  if log.index.contains key then
    (.ok true, log)
  else if log.index.isPartial then
    match log.scan key with
    | (.error e, log) => (.error e, log)
    | (.ok found, log) => (.ok found.isSome, log)
  else
    (.ok false, log)

/-- A write that must not replace anything is refused if the key has a record. -/
def permit (log : Log σ) (key : Bytes) (allowReplace : Bool) : Except Error Unit × Log σ :=
  if allowReplace then
    (.ok (), log)
  else
    match log.hasKey key with
    | (.error e, log) => (.error e, log)
    | (.ok true, log) => (.error (.doubleWrite (.logKey key)), log)
    | (.ok false, log) => (.ok (), log)

/-- Cut off the record at an offset, whose write does not count. The store may refuse. -/
def retract (log : Log σ) (offset : Nat) : Log σ :=
  { log with
    store := (Store.truncate log.store offset).2
    unflushedRecords := log.unflushedRecords - 1 }

/-- Let the index know of a record whose write counts. -/
def acknowledge (log : Log σ) (key : Bytes) (extent : Extent) : Log σ :=
  { log with
    index := (log.index.insert key extent).2
    recordsWritten := log.recordsWritten + 1 }

/-- Append the frame of a record and pass its barrier. -/
def commit (log : Log σ) (record : Record) (frame : Bytes) :
    Except (Failure Error) SequenceNumber × Log σ :=
  match Store.append log.store frame with
  | (.error .brokenOff, s) => (.error .brokenOff, { log with store := s, poisoned := true })
  | (.error (.reported e), s) =>
    (.error (.reported (.io .appendRecord e)), { log with store := s })
  | (.ok offset, s) =>
    let log := { log with store := s, unflushedRecords := log.unflushedRecords + 1 }
    match log.pass (log.settings.flushPolicy.barrier record.durability log.unflushedRecords) with
    | (.error e, log) => (.error (.reported e), log.retract offset)
    | (.ok (), log) =>
      (.ok record.sequence,
        log.acknowledge record.key ⟨offset, frame.length, record.sequence⟩)

def write (log : Log σ) (key value : Bytes) (durability : Durability) (allowReplace : Bool) :
    Except (Failure Error) SequenceNumber × Log σ :=
  if log.poisoned then
    (.error (.reported poisonedError), log)
  else
    match log.permit key allowReplace with
    | (.error e, log) => (.error (.reported e), log)
    | (.ok (), log) =>
      let record : Record := ⟨key, value, durability, allowReplace, log.nextSequence⟩
      match record.encode with
      | .error e => (.error (.reported e), log)
      | .ok frame =>
        { log with nextSequence := log.nextSequence.next }.commit record frame

end Log

end Dataflow

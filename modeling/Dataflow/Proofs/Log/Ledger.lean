import Dataflow.Log.Session
import Dataflow.Proofs.Log.KeyValues
import Dataflow.Store.Memory

/-!
# What a log has promised

A ledger is kept beside a session with a store in memory, through crashes and losses of power. It
knows nothing of the log but what callers were answered, and what a restart finds.

* `Session.Event`, `Session.face`: what happens to a session, and the answer.
* `Ledger`, `Ledger.note`: which writes were acknowledged, and how many records have to outlive a
  crash and a loss of power.
* `Session.recorded`: a session and its ledger after a history of events.
-/

namespace Dataflow

/-! ## Events -/

/-- What a restart does to the store. -/
inductive Loss
  | nothing
  | crash
  | power
  deriving DecidableEq, Repr

/-- What is left of a store. -/
def Loss.left : Loss → MemoryStore → MemoryStore
  | nothing => id
  | crash => MemoryStore.crash
  | power => MemoryStore.powerLoss

namespace Session

/-- What happens to a session. -/
inductive Event
  | call (c : Log.Call)
  /-- Sync a last time and give up the log. -/
  | close
  /-- From now on, syncs fail, or no longer do. -/
  | failSync (fails : Bool)
  | failFlush (fails : Bool)
  /-- Give up the log without flushing it and open it again over what is left of the store. Without
  settings, those of the last attempt are used. -/
  | restart (loss : Loss) (settings? : Option LogSettings)

/-- The answer to an event and the session after it. -/
def face (session : Session MemoryStore) : Event → Log.Answer × Session MemoryStore
  | .call c => session.call c
  | .close =>
    match session with
    | opened log =>
      let (result, s) := log.close
      (.done result, closed log.settings s)
    | closed settings s => (.closed, closed settings s)
  | .failSync fails => (.done (.ok ()), session.mapStore fun s => { s with failSync := fails })
  | .failFlush fails => (.done (.ok ()), session.mapStore fun s => { s with failFlush := fails })
  | .restart loss settings? =>
    let (result, session) := session.restart loss.left settings?
    (.done result, session)

end Session

/-! ## The ledger -/

/-- What callers know of a log, and of the logs that were open on its store before. -/
structure Ledger where
  /-- The records that the last restart found. -/
  restarted : List Record
  /-- The records whose writes were acknowledged since, in order. -/
  acknowledged : List Record := []
  /-- How many of these records have to outlive a crash. -/
  flushed : Nat
  /-- How many of them have to outlive a loss of power. -/
  synced : Nat
  /-- The writes that were acknowledged since the last flush. -/
  waiting : Nat := 0
  /-- All records whose writes were ever acknowledged. -/
  history : List Record := []

/-- The records of the frames of a store. -/
def Frame.records {σ : Type} [Store σ] (s : σ) : List Record :=
  (Frame.survey s).1.frames.map (·.frame.record)

namespace Ledger

/-- The ledger of a store whose records are all synced. -/
def start (rs : List Record) : Ledger :=
  { restarted := rs, flushed := rs.length, synced := rs.length }

/-- The records that have to be in the store. -/
def records (l : Ledger) : List Record := l.restarted ++ l.acknowledged

/-- A barrier was passed. -/
def pass (l : Ledger) : Barrier → Ledger
  | .none => l
  | .flush => { l with flushed := l.records.length, waiting := 0 }
  | .sync => { l with flushed := l.records.length, synced := l.records.length, waiting := 0 }

/-- One more record. -/
def append (l : Ledger) (r : Record) : Ledger :=
  { l with
    acknowledged := l.acknowledged ++ [r]
    waiting := l.waiting + 1
    history := l.history ++ [r] }

/-- A write was acknowledged. The barrier that belongs to it has been passed. -/
def acknowledge (l : Ledger) (policy : FlushPolicy) (r : Record) : Ledger :=
  (l.append r).pass (policy.barrier r.durability (l.waiting + 1))

/-- A restart has found some records. What a crash or a loss of power leaves is synced. -/
def restart (l : Ledger) (loss : Loss) (found : List Record) : Ledger :=
  { l with
    restarted := found
    acknowledged := []
    flushed := if loss = .nothing then l.flushed else found.length
    synced := if loss = .nothing then l.synced else found.length
    waiting := 0 }

/-- Take note of an event and its answer. -/
def note (l : Ledger) (session : Session MemoryStore) : Session.Event → Log.Answer → Ledger
  | .call (.write key value durability allowReplace), .written (.ok sequence) =>
    l.acknowledge session.settings.flushPolicy ⟨key, value, durability, allowReplace, sequence⟩
  | .call .flush, .done (.ok ()) => l.pass .flush
  | .call .sync, .done (.ok ()) => l.pass .sync
  | .close, .done (.ok ()) => l.pass .sync
  | .restart loss _, _ => l.restart loss (Frame.records (loss.left session.store))
  | _, _ => l

end Ledger

/-- A session and its ledger after a history of events. -/
def Session.recorded (session : Session MemoryStore) (l : Ledger) :
    List Session.Event → Session MemoryStore × Ledger
  | [] => (session, l)
  | e :: events =>
    let (answer, session') := session.face e
    session'.recorded (l.note session e answer) events

/-! ## What the ledger adds up to -/

namespace Ledger

variable {l : Ledger} {rs : List Record}

/-- The ledger of a store that held `rs` at first. No record is lost that was there at first or
whose write was acknowledged as persistent, and none is there whose write was not acknowledged. -/
structure Balanced (rs : List Record) (l : Ledger) : Prop where
  kept : (rs ++ l.history.filter (·.durability = .persist)).Sublist (l.records.take l.synced)
  only : l.records.Sublist (rs ++ l.history)

@[simp] theorem records_start (rs : List Record) : (start rs).records = rs := List.append_nil rs

theorem balanced_start (rs : List Record) : Balanced rs (start rs) where
  kept := by
    rw [records_start]
    simp [start]
  only := by
    rw [records_start]
    simp [start]

@[simp] theorem records_pass (l : Ledger) (barrier : Barrier) :
    (l.pass barrier).records = l.records := by
  cases barrier <;> rfl

@[simp] theorem history_pass (l : Ledger) (barrier : Barrier) :
    (l.pass barrier).history = l.history := by
  cases barrier <;> rfl

@[simp] theorem records_append (l : Ledger) (r : Record) :
    (l.append r).records = l.records ++ [r] := by
  rw [append, records, records, List.append_assoc]

@[simp] theorem records_acknowledge (l : Ledger) (policy : FlushPolicy) (r : Record) :
    (l.acknowledge policy r).records = l.records ++ [r] := by
  rw [acknowledge, records_pass, records_append]

@[simp] theorem history_acknowledge (l : Ledger) (policy : FlushPolicy) (r : Record) :
    (l.acknowledge policy r).history = l.history ++ [r] := history_pass _ _

@[simp] theorem records_restart (l : Ledger) (loss : Loss) (found : List Record) :
    (l.restart loss found).records = found := List.append_nil found

theorem Balanced.pass (h : l.Balanced rs) (barrier : Barrier) : (l.pass barrier).Balanced rs := by
  cases barrier with
  | none => exact h
  | flush => exact ⟨h.kept, h.only⟩
  | sync =>
    refine ⟨?_, h.only⟩
    change List.Sublist _ (l.records.take l.records.length)
    rw [List.take_length]
    exact h.kept.trans (List.take_sublist _ _)

/-- The barrier of a transient record is no sync. -/
theorem synced_acknowledge (l : Ledger) (policy : FlushPolicy) {r : Record}
    (h : r.durability = .transient) : (l.acknowledge policy r).synced = l.synced := by
  rw [acknowledge, h]
  cases policy with
  | noFlush => rfl
  | alwaysFlush => rfl
  | periodic n =>
    rw [FlushPolicy.barrier]
    split <;> rfl

/-- A persistent record is kept from then on, because its barrier is a sync. -/
theorem Balanced.acknowledge (h : l.Balanced rs) (policy : FlushPolicy) (r : Record) :
    (l.acknowledge policy r).Balanced rs where
  kept := by
    rw [history_acknowledge, List.filter_append, ← List.append_assoc, records_acknowledge]
    cases hdurability : r.durability with
    | persist =>
      have hsynced : (l.acknowledge policy r).synced = (l.records ++ [r]).length := by
        rw [Ledger.acknowledge, hdurability, FlushPolicy.barrier, Ledger.pass, records_append]
      rw [hsynced, List.take_length]
      exact (h.kept.trans (List.take_sublist _ _)).append List.filter_sublist
    | transient =>
      have hfilter : [r].filter (·.durability = .persist) = [] := by simp [hdurability]
      rw [l.synced_acknowledge policy hdurability, hfilter, List.append_nil, List.take_append]
      exact h.kept.trans (List.sublist_append_left _ _)
  only := by
    rw [records_acknowledge, history_acknowledge, ← List.append_assoc]
    exact h.only.append_right [r]

/-- A restart that finds the first records, all that are synced among them. -/
theorem Balanced.restart (h : l.Balanced rs) (loss : Loss) {n : Nat} (hn : l.synced ≤ n)
    (hnothing : loss = .nothing → l.records.length ≤ n) :
    (l.restart loss (l.records.take n)).Balanced rs where
  kept := by
    rw [records_restart]
    have htake : l.records.take l.synced <+: l.records.take n :=
      List.take_prefix_take_left hn
    cases loss with
    | nothing =>
      rw [List.take_of_length_le (hnothing rfl)]
      exact h.kept
    | crash =>
      change List.Sublist _ ((l.records.take n).take (l.records.take n).length)
      rw [List.take_length]
      exact h.kept.trans htake.sublist
    | power =>
      change List.Sublist _ ((l.records.take n).take (l.records.take n).length)
      rw [List.take_length]
      exact h.kept.trans htake.sublist
  only := by
    rw [records_restart]
    exact (List.take_sublist _ _).trans h.only

end Ledger

end Dataflow

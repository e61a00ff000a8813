import Dataflow.Error

/-!
# Settings of a checkpoint log

* `FlushPolicy`: how often buffered records are flushed.
* `LogSettings`: the settings, with their defaults.
* `LogSettings.validate`: what a log refuses.
-/

namespace Dataflow

/-- How often buffered records are flushed. A persistent record is synced in any case. -/
inductive FlushPolicy
  /-- Only a persistent record, a flush or a sync empties the buffer. -/
  | noFlush
  /-- After every record. -/
  | alwaysFlush
  /-- Once so many records are buffered. -/
  | periodic (records : Nat)
  deriving DecidableEq, Repr

/-- The settings of a checkpoint log. -/
structure LogSettings where
  path : String := ".ruleflow/checkpoint.xpt"
  flushPolicy : FlushPolicy := .noFlush
  maxIndexEntries : Nat := 512
  deriving DecidableEq, Repr

namespace LogSettings

/-- An index without room and a period without records are refused. -/
def validate (c : LogSettings) : Except Error Unit :=
  if c.maxIndexEntries = 0 then .error (.command .zeroIndexBound)
  else if c.flushPolicy = .periodic 0 then .error (.command .zeroFlushPeriod)
  else .ok ()

end LogSettings

end Dataflow

import Dataflow.Identifier
import Dataflow.Bytes.Varint

/-!
# Errors

Every failure of the engine and of the checkpoint log is an `Error`, built from its cause. An
error reports as one of six kinds.

* `OutcomeKind`: the kinds, with their numbers and names.
* `IoError`: what a store or a file system reports.
* `FrameFault`: why a frame could not be read.
* `Error`: the causes; `Error.message` is the wording of each and `Error.kind` its kind.
* `Failure`: a call that ends without a value either reports an error or is broken off.

Wherever a caller may describe a cause of its own, the type of that cause has a constructor
`described`, which the library itself never builds.
-/

namespace Dataflow

/-! ## Kinds -/

/-- The kinds of outcome that callers tell apart. -/
inductive OutcomeKind
  | success
  | outOfMemory
  | doubleWrite
  | notFound
  | command
  | unknown
  deriving DecidableEq, Repr

namespace OutcomeKind

def code : OutcomeKind → Nat
  | success => 0
  | outOfMemory => 1
  | doubleWrite => 2
  | notFound => 3
  | command => 4
  | unknown => 5

def ofCode? : Nat → Option OutcomeKind
  | 0 => some success
  | 1 => some outOfMemory
  | 2 => some doubleWrite
  | 3 => some notFound
  | 4 => some command
  | 5 => some unknown
  | _ => none

def name : OutcomeKind → String
  | success => "SUCCESS"
  | outOfMemory => "ERROR_OOM"
  | doubleWrite => "ERROR_DOUBLE_WRITE"
  | notFound => "ERROR_NOT_FOUND"
  | command => "ERROR_COMMAND"
  | unknown => "ERROR_UNKNOWN"

/-- A caller can go on after an outcome of this kind. -/
def isRecoverable : OutcomeKind → Bool
  | success | doubleWrite | notFound => true
  | outOfMemory | command | unknown => false

theorem ofCode?_eq_some_iff {n : Nat} {k : OutcomeKind} : ofCode? n = some k ↔ k.code = n := by
  constructor
  · intro h
    unfold ofCode? at h
    split at h <;> simp_all [code] <;> subst h <;> rfl
  · rintro rfl
    cases k <;> rfl

end OutcomeKind

/-! ## Input and output -/

/-- What a volume answers to a request that it cannot serve. -/
inductive VolumeError
  | notFound
  | alreadyExists
  | notDirectory
  | isDirectory
  | nameTooLong
  | nulInPath
  /-- A length that is no file offset. -/
  | lengthOutOfRange
  | fileTooLarge
  deriving DecidableEq, Repr

/-- The wording of a refusal, with its number where it has one. -/
def VolumeError.message : VolumeError → String
  | notFound => "No such file or directory (os error 2)"
  | alreadyExists => "File exists (os error 17)"
  | notDirectory => "Not a directory (os error 20)"
  | isDirectory => "Is a directory (os error 21)"
  | nameTooLong => "File name too long (os error 36)"
  | nulInPath => "file name contained an unexpected NUL byte"
  | lengthOutOfRange => "number too large to fit in target type"
  | fileTooLarge => "File too large (os error 27)"

/-- The calls that a store can be made to fail. -/
inductive StoreCall
  | append
  | flush
  | sync
  | read
  | truncate
  deriving DecidableEq, Repr

def StoreCall.name : StoreCall → String
  | append => "append"
  | flush => "flush"
  | sync => "sync"
  | read => "read"
  | truncate => "truncate"

/-- Why a store did not do what it was asked. -/
inductive IoError
  /-- The range of a read leaves the store. -/
  | pastEnd (length offset : Nat)
  /-- The file turned out shorter than the store believed. -/
  | shortRead
  | volume (e : VolumeError)
  | injected (call : StoreCall)
  | described (text : String)
  deriving DecidableEq, Repr

def IoError.message : IoError → String
  | pastEnd length offset => s!"read of {length} bytes at offset {offset} past end of log"
  | shortRead => "failed to fill whole buffer"
  | volume e => e.message
  | injected call => s!"{call.name} failure injected"
  | described text => text

/-! ## Frames -/

/-- What is wrong with the bytes of a frame. -/
inductive Damage
  /-- The bytes end before the frame does. -/
  | torn (needed available : Nat)
  /-- The trailer does not fit the rest. -/
  | checksum (stored computed : UInt32)
  | unknownFlags (flags : UInt8)
  | described (text : String)
  deriving DecidableEq, Repr

/-- A number in hexadecimal, with leading zeros up to the given count of digits. -/
def hexNumber (digits n : Nat) : String :=
  let ds := Nat.toDigits 16 n
  "0x" ++ String.ofList (List.replicate (digits - ds.length) '0' ++ ds)

def Damage.message : Damage → String
  | torn needed available => s!"frame truncated: need {needed} bytes, {available} available"
  | checksum stored computed =>
    s!"checksum mismatch: stored {hexNumber 8 stored.toNat}, computed {hexNumber 8 computed.toNat}"
  | unknownFlags flags => s!"unknown flag bits {hexNumber 2 flags.toNat}"
  | described text => text

/-- Why a frame could not be read. -/
inductive FrameFault
  /-- The bytes are there, but they are no frame. -/
  | damaged (d : Damage)
  | tooLarge (length : Nat)
  /-- The store could not be read. -/
  | unreadable (e : IoError)
  deriving DecidableEq, Repr

namespace FrameFault

def message : FrameFault → String
  | damaged d => d.message
  | tooLarge length => s!"frame of {length} bytes cannot be allocated"
  | unreadable e => s!"storage read failed: {e.message}"

/-- The bytes are unusable, as opposed to the store being unreadable. -/
def meansDamage : FrameFault → Bool
  | unreadable _ => false
  | damaged _ | tooLarge _ => true

end FrameFault

/-! ## Causes -/

/-- What an identifier or a key names. -/
inductive Subject
  | datum (id : DatumId)
  | transform (id : TransformId)
  | logKey (key : Bytes)
  | described (kind id : String)
  deriving DecidableEq, Repr

namespace Subject

def kind : Subject → String
  | datum _ => "Datum"
  | transform _ => "Transform"
  | logKey _ => "Checkpoint key"
  | described kind _ => kind

/-- The most bytes of a key that a message shows. -/
def keyBytesShown : Nat := 32

/-- The text of the identifier. A long key is cut, and three dots say so. -/
def idText : Subject → String
  | datum id => id.text
  | transform id => id.text
  | logKey key =>
    if keyBytesShown < key.length then
      Bytes.hex (key.take keyBytesShown) ++ "..."
    else
      Bytes.hex key
  | described _ id => id

end Subject

/-- What could not be allocated. -/
inductive Resource
  | readyQueue
  | recordBuffer (length : Nat)
  | described (text : String)
  deriving DecidableEq, Repr

def Resource.message : Resource → String
  | readyQueue =>
    "ready queue: memory allocation failed because the computed capacity exceeded " ++
      "the collection's maximum"
  | recordBuffer length => s!"record buffer of {length} bytes"
  | described text => text

/-- The greatest length of a key or a value in a record. -/
def fieldLimit : Nat := Bytes.capacity 4 - 1

/-- Why a request is refused. -/
inductive Refusal
  | blankName
  | repeatedOutput (name : String) (output : DatumId)
  /-- A datum is released while live transforms name it. -/
  | stillUsed (id : DatumId) (uses : Nat)
  /-- A transform is completed before its inputs are set. -/
  | inputsUnset (id : TransformId) (pending : Nat)
  /-- A transform's key is asked for before its inputs are set. -/
  | noKeyYet (id : TransformId)
  /-- An input that a key needs has no value. -/
  | inputUnset (input : DatumId) (id : TransformId)
  | outputCount (id : TransformId) (expected given : Nat)
  /-- The bound of a key index is zero. -/
  | zeroIndexBound
  | zeroFlushPeriod
  | malformedSettings
  /-- A key does not fit a record. -/
  | keyTooLong (length : Nat)
  /-- A value does not fit a record. -/
  | valueTooLong (length : Nat)
  | described (text : String)
  deriving DecidableEq, Repr

def Refusal.message : Refusal → String
  | blankName => "transform name must not be empty"
  | repeatedOutput name output => s!"transform {name} lists output {output.text} twice"
  | stillUsed id uses => s!"{id.text} is still used by {uses} live transform(s)"
  | inputsUnset id pending => s!"{id.text} cannot complete: {pending} input(s) unset"
  | noKeyYet id => s!"{id.text} has no checkpoint key until its inputs are set"
  | inputUnset input id => s!"input {input.text} of {id.text} is unset"
  | outputCount id expected given =>
    s!"{id.text} has {expected} output(s), got {given} value(s)"
  | zeroIndexBound => "max_index_entries must be positive"
  | zeroFlushPeriod => "periodic flush interval must be positive"
  | malformedSettings => "invalid checkpoint config"
  | keyTooLong length => s!"key of {length} bytes exceeds {fieldLimit}"
  | valueTooLong length => s!"value of {length} bytes exceeds {fieldLimit}"
  | described text => text

/-- What was being done when a store failed. -/
inductive Operation
  | openFile (path : String)
  | readRecord (offset : Nat)
  | truncateTail
  | appendRecord
  | syncRecord
  | flushLog
  | syncLog
  | described (text : String)
  deriving DecidableEq, Repr

def Operation.message : Operation → String
  | openFile path => s!"open {path}"
  | readRecord offset => s!"read record at offset {offset}"
  | truncateTail => "truncate checkpoint tail"
  | appendRecord => "append checkpoint record"
  | syncRecord => "sync persistent checkpoint record"
  | flushLog => "flush checkpoint log"
  | syncLog => "sync checkpoint log"
  | described text => text

/-- Failures that point at a fault outside the request. -/
inductive InternalFault
  /-- A call on the log was broken off while it held the log. -/
  | logPoisoned
  /-- A call on a shared engine was broken off while it held the engine. -/
  | enginePoisoned
  /-- A stored value is not a list of outputs. -/
  | undecodable (e : DecodeError)
  | described (text : String)
  deriving DecidableEq, Repr

def InternalFault.message : InternalFault → String
  | logPoisoned => "checkpoint lock poisoned"
  | enginePoisoned => "engine lock poisoned"
  | undecodable e => s!"decode checkpoint record: {e.message}"
  | described text => text

/-! ## The error type -/

/-- A failure of the engine or of the log, by its cause. -/
inductive Error
  /-- Something could not be allocated. -/
  | outOfMemory (resource : Resource)
  /-- A thing that is written once was written before. -/
  | doubleWrite (subject : Subject)
  /-- A thing does not exist. -/
  | notFound (subject : Subject)
  | command (reason : Refusal)
  | io (operation : Operation) (source : IoError)
  | corrupt (offset : Nat) (damage : Damage)
  /-- Something else is broken. -/
  | internal (fault : InternalFault)
  deriving DecidableEq, Repr

namespace Error

def kind : Error → OutcomeKind
  | outOfMemory _ => .outOfMemory
  | doubleWrite _ => .doubleWrite
  | notFound _ => .notFound
  | command _ => .command
  | io _ _ | corrupt _ _ | internal _ => .unknown

def message : Error → String
  | outOfMemory resource => s!"Out of memory: {resource.message}"
  | doubleWrite subject => s!"{subject.kind} already written: {subject.idText}"
  | notFound subject => s!"{subject.kind} not found: {subject.idText}"
  | command reason => s!"Bad command: {reason.message}"
  | io operation source => s!"IO error during {operation.message}: {source.message}"
  | corrupt offset damage => s!"Corrupt record at offset {offset}: {damage.message}"
  | internal fault => s!"Internal error: {fault.message}"

/-- The store's own error behind this one. -/
def source? : Error → Option IoError
  | io _ source => some source
  | _ => none

end Error

/-- The fault of the frame at an offset, as an error of the log. -/
def FrameFault.at (offset : Nat) : FrameFault → Error
  | .damaged d => .corrupt offset d
  | .tooLarge length => .outOfMemory (.recordBuffer length)
  | .unreadable e => .io (.readRecord offset) e

/-- How a call ends without a value. -/
inductive Failure (ε : Type)
  | reported (e : ε)
  /-- The call is broken off in the middle. What it held stays unusable. -/
  | brokenOff
  deriving DecidableEq, Repr

end Dataflow

import Dataflow.Store.Basic
import Dataflow.Store.Image

/-!
# A store in memory

The store remembers how far it was flushed and synced, so that one can ask what a process would
find after a crash. Flushing and syncing can be made to fail.

* `MemoryStore`: the store.
* `MemoryStore.crash`, `MemoryStore.powerLoss`: what is left of it.
-/

namespace Dataflow

/-- A store in memory. -/
structure MemoryStore where
  data : Image := {}
  flushed : Nat := 0
  /-- The length of the synced part. -/
  synced : Nat := 0
  /-- Every sync fails, after it has flushed. -/
  failSync : Bool := false
  /-- Every flush fails, and with it every sync. -/
  failFlush : Bool := false
  deriving DecidableEq, Repr

namespace MemoryStore

/-- A store whose bytes are all synced. -/
def ofImage (data : Image) : MemoryStore :=
  { data := data, flushed := data.size, synced := data.size }

/-- A store that holds a byte string, all of it synced. -/
def ofBytes (bytes : Bytes) : MemoryStore := ofImage (.ofBytes bytes)

/-- What is left after the process has crashed. -/
def crash (s : MemoryStore) : MemoryStore := ofImage (s.data.take s.flushed)

/-- What is left after the power has gone. -/
def powerLoss (s : MemoryStore) : MemoryStore := ofImage (s.data.take s.synced)

def append (s : MemoryStore) (bytes : Bytes) : MemoryStore :=
  { s with data := s.data.append bytes }

/-- Flush everything, unless flushing fails. -/
def flush (s : MemoryStore) : Except IoError Unit × MemoryStore :=
  if s.failFlush then
    (.error (.injected .flush), s)
  else
    (.ok (), { s with flushed := s.data.size })

/-- Flush, then sync everything, unless syncing fails. -/
def sync (s : MemoryStore) : Except IoError Unit × MemoryStore :=
  match s.flush with
  | (.error e, s) => (.error e, s)
  | (.ok (), s) =>
    if s.failSync then
      (.error (.injected .sync), s)
    else
      (.ok (), { s with flushed := s.data.size, synced := s.data.size })

/-- The bytes of a range, which must not leave the store. -/
def readAt (s : MemoryStore) (offset length : Nat) : Except IoError Bytes :=
  if offset + length ≤ s.data.size then
    .ok (s.data.slice offset length)
  else
    .error (.pastEnd length offset)

def truncate (s : MemoryStore) (size : Nat) : MemoryStore :=
  { s with
    data := s.data.take size
    flushed := min s.flushed size
    synced := min s.synced size }

instance : Store MemoryStore where
  size s := s.data.size
  append s bytes := (.ok s.data.size, s.append bytes)
  flush := flush
  sync := sync
  readAt s offset length := (s.readAt offset length, s)
  truncate s size := (.ok (), s.truncate size)

end MemoryStore

end Dataflow

import Dataflow.Store.Basic
import Dataflow.Store.Volume

/-!
# A store in a file

Appended bytes wait in the process until a flush writes them to the end of the file. The store
remembers how long the file was when it last looked, so that a file which others have cut is
noticed by a read that comes up short. A flush that fails keeps all bytes waiting, also those of
which it has written a part.

* `FileStore`: the store, with the volume on which its file lies.
* `FileStore.open`, `FileStore.close`: the two ends of its life; closing flushes.
-/

namespace Dataflow

/-- A store in a file. -/
structure FileStore where
  volume : Volume
  path : String
  location : Location
  /-- The bytes that are not yet in the file. -/
  pending : Image := {}
  /-- The length of the file, as far as the store knows. -/
  flushedLength : Nat
  deriving Repr

namespace FileStore

def disk (s : FileStore) : SparseBytes := s.volume.content s.location

def setDisk (s : FileStore) (content : SparseBytes) : FileStore :=
  { s with volume := s.volume.put s.location (.file content) }

/-- Open the file of a path. Missing directories are made, and so is a missing file. A refusal
hands the volume back. -/
def «open» (v : Volume) (path : String) : Except (IoError × Volume) FileStore :=
  match v.createDirectories ((Volume.parent? path).getD "") with
  | (.error e, v) => .error (.volume e, v)
  | (.ok (), v) =>
    match v.openFile path with
    | (.error e, v) => .error (.volume e, v)
    | (.ok l, v) =>
      .ok { volume := v, path := path, location := l, flushedLength := (v.content l).size }

/-- The number of bytes, in the file and waiting. -/
def size (s : FileStore) : Nat := s.flushedLength + s.pending.size

/-- Let bytes wait behind those of the file. -/
def append (s : FileStore) (bytes : Bytes) : FileStore :=
  { s with pending := s.pending.append bytes }

/-- Write the waiting bytes to the file. If the file cannot hold them all, they go on waiting. -/
def flush (s : FileStore) : Except IoError Unit × FileStore :=
  if s.pending.isEmpty then
    (.ok (), s)
  else
    match s.volume.writeAt s.location s.flushedLength s.pending.toBytes with
    | (.error e, v) => (.error (.volume e), { s with volume := v })
    | (.ok (), v) => (.ok (), { s with volume := v, flushedLength := s.size, pending := {} })

/-- The bytes of a range, from the file and from those that wait. -/
def readAt (s : FileStore) (offset length : Nat) : Except IoError Bytes :=
  if s.size < offset + length then
    .error (.pastEnd length offset)
  else
    let fromFile := min (s.flushedLength - offset) length
    if 0 < fromFile ∧ s.disk.size < offset + fromFile then
      .error .shortRead
    else
      .ok (s.disk.slice offset fromFile ++
        s.pending.slice (offset + fromFile - s.flushedLength) (length - fromFile))

/-- Discard everything from an offset on; the file is touched only if it reaches so far. -/
def truncate (s : FileStore) (size : Nat) : FileStore :=
  if s.flushedLength ≤ size then
    { s with pending := s.pending.take (size - s.flushedLength) }
  else
    { s.setDisk (s.disk.resize size) with flushedLength := size, pending := {} }

/-- Give up the store, after a last flush, whether or not that goes well. What remains is the
volume. -/
def close (s : FileStore) : Volume := s.flush.2.volume

instance : Store FileStore where
  size := size
  append s bytes := (.ok s.size, s.append bytes)
  flush s := s.flush
  sync s := s.flush
  readAt s offset length := (s.readAt offset length, s)
  truncate s size := (.ok (), s.truncate size)

end FileStore

end Dataflow

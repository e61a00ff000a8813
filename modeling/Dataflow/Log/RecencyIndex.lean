import Dataflow.Error
import Dataflow.SortedMap

/-!
# The bounded index of a log

The index knows where the records of some keys lie. It holds a bounded number of keys; a new key
in a full index takes the place of the key whose last use is longest ago. A key that was evicted is
still in the log and is found again by a scan.

Uses are told apart by a clock that ticks at every insertion and at every successful look-up.

* `Extent`: where a record lies.
* `RecencyIndex.get`, `RecencyIndex.insert`: the uses of a key.
* `RecencyIndex.isPartial`: some key of the log may be missing from the index.
-/

namespace Dataflow

/-- Where a record lies in the log. -/
structure Extent where
  offset : Nat
  length : Nat
  sequence : SequenceNumber
  deriving DecidableEq, Repr

/-- What the index knows of a key. -/
structure IndexEntry where
  extent : Extent
  /-- The time of the last use. -/
  stamp : Nat
  deriving DecidableEq, Repr

/-- A bounded map from keys to extents. -/
structure RecencyIndex where
  entries : SortedMap Bytes IndexEntry := {}
  capacity : Nat
  clock : Nat := 0
  evictions : Nat := 0
  deriving DecidableEq, Repr

namespace RecencyIndex

/-- An empty index with room for a number of keys, one at least. -/
def ofCapacity (capacity : Nat) : RecencyIndex := { capacity := max capacity 1 }

def size (x : RecencyIndex) : Nat := x.entries.size

def isEmpty (x : RecencyIndex) : Bool := x.entries.isEmpty

def keys (x : RecencyIndex) : List Bytes := x.entries.keys

/-- Some key may have been evicted. -/
def isPartial (x : RecencyIndex) : Bool := 0 < x.evictions

/-- The index holds a key. Asking is no use of it. -/
def contains (x : RecencyIndex) (key : Bytes) : Bool := x.entries.contains key

/-- The extent of a key, which is thereby used. -/
def get (x : RecencyIndex) (key : Bytes) : Option Extent × RecencyIndex :=
  match x.entries.get? key with
  | none => (none, x)
  | some entry =>
    let now := x.clock + 1
    (some entry.extent,
      { x with
        entries := x.entries.modify key ({ · with stamp := now })
        clock := now })

/-- The key of the entry whose last use is longest ago. -/
def leastRecent? (entries : List (Bytes × IndexEntry)) : Option Bytes :=
  (entries.foldl (fun best e =>
    match best with
    | none => some e
    | some b => if e.2.stamp < b.2.stamp then some e else some b) none).map (·.1)

def evict (x : RecencyIndex) : Option Bytes × RecencyIndex :=
  match leastRecent? x.entries.toList with
  | none => (none, x)
  | some victim =>
    (some victim,
      { x with entries := x.entries.erase victim, evictions := x.evictions + 1 })

/-- Use a key and say where its record lies. An extent with an older sequence number than the
known one is ignored. The key that had to go comes first. -/
def insert (x : RecencyIndex) (key : Bytes) (extent : Extent) : Option Bytes × RecencyIndex :=
  let x := { x with clock := x.clock + 1 }
  match x.entries.get? key with
  | some known =>
    let extent :=
      if known.extent.sequence.number ≤ extent.sequence.number then extent else known.extent
    (none, { x with entries := x.entries.modify key fun _ => ⟨extent, x.clock⟩ })
  | none =>
    let (evicted, x) := if x.capacity ≤ x.size then x.evict else (none, x)
    (evicted, { x with entries := x.entries.insert key ⟨extent, x.clock⟩ })

end RecencyIndex

end Dataflow

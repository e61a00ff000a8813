import Dataflow.Store.Basic

/-!
# Stores that fail on demand

A store around another one, with switches that make its calls fail before they do anything, and
with bytes that read wrongly although they are stored right.

* `FaultyStore`: the store and its switches.
* `FaultyStore.decayed`: what a read sees.
-/

namespace Dataflow

/-- A store whose calls can be made to fail. -/
structure FaultyStore (σ : Type) where
  inner : σ
  failAppend : Bool := false
  failTruncate : Bool := false
  failRead : Bool := false
  /-- An append does not even return. -/
  breakAppend : Bool := false
  /-- Offsets of bytes that have decayed, with the bits that have flipped. -/
  rot : List (Nat × UInt8) := []
  deriving DecidableEq, Repr

namespace FaultyStore

variable {σ : Type}

/-- The bits that have flipped in the byte at an offset. -/
def maskAt (s : FaultyStore σ) (offset : Nat) : UInt8 :=
  (s.rot.filter (·.1 == offset)).foldl (fun mask r => mask ^^^ r.2) 0

/-- What a read that starts at an offset sees of the stored bytes. -/
def decayed (s : FaultyStore σ) (offset : Nat) (bytes : Bytes) : Bytes :=
  if s.rot.isEmpty then bytes else bytes.mapIdx fun i b => b ^^^ s.maskAt (offset + i)

instance [Store σ] : Store (FaultyStore σ) where
  size s := Store.size s.inner
  append s bytes :=
    if s.breakAppend then
      (.error .brokenOff, s)
    else if s.failAppend then
      (.error (.reported (.injected .append)), s)
    else
      let (result, inner) := Store.append s.inner bytes
      (result, { s with inner := inner })
  flush s :=
    let (result, inner) := Store.flush s.inner
    (result, { s with inner := inner })
  sync s :=
    let (result, inner) := Store.sync s.inner
    (result, { s with inner := inner })
  readAt s offset length :=
    if s.failRead then
      (.error (.injected .read), s)
    else
      let (result, inner) := Store.readAt s.inner offset length
      (result.map (s.decayed offset), { s with inner := inner })
  truncate s size :=
    if s.failTruncate then
      (.error (.injected .truncate), s)
    else
      let (result, inner) := Store.truncate s.inner size
      (result, { s with inner := inner })

end FaultyStore

end Dataflow

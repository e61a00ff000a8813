import Dataflow.Error

/-!
# The queue of ready transforms

Transforms wait here in the order in which they became ready, each at most once.

* `DispatchQueue.push`, `DispatchQueue.pop`, `DispatchQueue.remove`: the operations.
* `DispatchQueue.reserve`: asks for room.
-/

namespace Dataflow

/-- The ready transforms, the first to be handed out in front. -/
structure DispatchQueue where
  ids : List TransformId := []
  deriving DecidableEq, Repr

namespace DispatchQueue

def size (q : DispatchQueue) : Nat := q.ids.length

def isEmpty (q : DispatchQueue) : Bool := q.ids.isEmpty

def contains (q : DispatchQueue) (id : TransformId) : Bool := q.ids.contains id

/-- Add a transform at the end, unless it is in the queue. The answer says whether it was added. -/
def push (q : DispatchQueue) (id : TransformId) : Bool × DispatchQueue :=
  if q.contains id then (false, q) else (true, ⟨q.ids ++ [id]⟩)

/-- Take transforms from the front, up to a number of them. -/
def pop (q : DispatchQueue) (max : Nat) : List TransformId × DispatchQueue :=
  (q.ids.take max, ⟨q.ids.drop max⟩)

/-- Remove a transform and keep the order of the others. The answer says whether it was there. -/
def remove (q : DispatchQueue) (id : TransformId) : Bool × DispatchQueue :=
  (q.contains id, ⟨q.ids.erase id⟩)

/-- The most transforms that half the addresses of 64 bits have room for, at 16 bytes each. -/
def maxSize : Nat := (Bytes.capacity 8 / 2 - 1) / 16

def reserve (q : DispatchQueue) (additional : Nat) : Except Error Unit :=
  if maxSize < q.size + additional then .error (.outOfMemory .readyQueue) else .ok ()

end DispatchQueue

end Dataflow

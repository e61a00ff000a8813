import Dataflow.RedBlack.Basic

/-!
# Walking through a red-black tree

A cursor stands before an entry of a tree, or behind the last one, and moves on in ascending order.

* `Tree.first`, `Tree.lowerBound`: a cursor before the least key, or before the least key that is
  not below a given one.
* `Cursor.peek`, `Cursor.next`, `Cursor.bounds`, `Cursor.take`: what a cursor sees.
* `Tree.toList`, `Tree.keys`, `Tree.values`, `Tree.entriesFrom`: whole walks.
-/

namespace Dataflow.RedBlack

/-- A position in a tree. -/
structure Cursor (K V : Type) where
  tree : Tree K V
  position : Link

namespace Cursor

variable {K V : Type}

def peek (c : Cursor K V) : Option K := do
  let i ← c.position
  (c.tree.node? i).map (·.key)

/-- The next entry and the position after it. -/
def next (c : Cursor K V) : Option ((K × V) × Cursor K V) := do
  let i ← c.position
  let n ← c.tree.node? i
  let following ← c.tree.successor i
  return (n.entry, { c with position := following })

/-- Bounds on the number of entries that are still to come. -/
def bounds (c : Cursor K V) : Nat × Nat :=
  match c.position with
  | none => (0, 0)
  | some _ => (1, c.tree.size)

/-- The next entries, up to a number of them, and the position after them. -/
def take : (count : Nat) → Cursor K V → List (K × V) × Cursor K V
  | 0, c => ([], c)
  | count + 1, c =>
    match c.next with
    | none => ([], c)
    | some (e, c) =>
      let (rest, c) := take count c
      (e :: rest, c)

/-- All entries that are still to come. -/
def toList (c : Cursor K V) : List (K × V) := (c.take c.tree.size).1

end Cursor

namespace Tree

variable {K V : Type}

/-- A cursor before the first entry. -/
def first (t : Tree K V) : Cursor K V := ⟨t, t.root.bind (t.descend .left)⟩

/-- Search for the first slot whose key is not below `k`; `best` is the one found so far. -/
def lowerBoundFrom [Ord K] (t : Tree K V) (k : K) : (fuel : Nat) → Link → (best : Link) → Link
  | _, none, best => best
  | 0, some _, best => best
  | fuel + 1, some i, best =>
    match t.node? i with
    | none => best
    | some n =>
      if compare n.key k = .lt then t.lowerBoundFrom k fuel n.right best
      else t.lowerBoundFrom k fuel n.left (some i)

/-- A cursor before the first entry whose key is not below `k`. -/
def lowerBound [Ord K] (t : Tree K V) (k : K) : Cursor K V :=
  ⟨t, t.lowerBoundFrom k t.size t.root none⟩

def toList (t : Tree K V) : List (K × V) := t.first.toList

def keys (t : Tree K V) : List K := t.toList.map (·.1)

def values (t : Tree K V) : List V := t.toList.map (·.2)

/-- The entries whose keys are not below `k`, in ascending order. -/
def entriesFrom [Ord K] (t : Tree K V) (k : K) : List (K × V) := (t.lowerBound k).toList

end Tree

end Dataflow.RedBlack

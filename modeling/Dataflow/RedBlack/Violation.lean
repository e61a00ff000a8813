import Dataflow.RedBlack.Cursor

/-!
# Checking a red-black tree

`Tree.check` looks for the first thing that is wrong with an arena, in this order: a red root, a
root with a parent, then node by node from the root links that do not lead back, red pairs and
unequal black heights, then the number of nodes reached, and at last the order of the keys.

* `Violation`: what can be wrong, with its wording.
* `Tree.check`: the check, which gives the black height of a sound tree.
-/

namespace Dataflow.RedBlack

/-- What is wrong with a tree. -/
inductive Violation
  | redRoot
  | redPair (slot : Nat)
  | blackHeight (slot left right : Nat)
  | parentLink (slot : Nat)
  | order (position : Nat)
  | count (reachable stored : Nat)
  deriving DecidableEq, Repr

def Violation.message : Violation → String
  | redRoot => "root node is red"
  | redPair slot => s!"red node at slot {slot} has a red child"
  | blackHeight slot left right =>
    s!"black height mismatch at slot {slot}: left {left}, right {right}"
  | parentLink slot => s!"child of slot {slot} has a stale parent link"
  | order position => s!"keys out of order at in-order position {position}"
  | count reachable stored =>
    s!"{reachable} nodes reachable from root, arena holds {stored}"

namespace Tree

variable {K V : Type}

/-- A child has to lead back to its parent and must not make a red pair with it. -/
def checkChild (t : Tree K V) (i : Nat) (n : Node K V) : Link → Except Violation Unit
  | none => .ok ()
  | some c =>
    match t.node? c with
    | none => .error (.parentLink i)
    | some nc =>
      if nc.parent ≠ some i then .error (.parentLink i)
      else if n.color = .red ∧ nc.color = .red then .error (.redPair i)
      else .ok ()

/-- Check the nodes below a link. The black height comes first, then the number of nodes. -/
def checkBelow (t : Tree K V) : (fuel : Nat) → Link → Except Violation (Nat × Nat)
  | _, none => .ok (1, 0)
  | 0, some i => .error (.parentLink i)
  | fuel + 1, some i =>
    match t.node? i with
    | none => .error (.parentLink i)
    | some n => do
      t.checkChild i n n.left
      t.checkChild i n n.right
      let (left, leftCount) ← t.checkBelow fuel n.left
      let (right, rightCount) ← t.checkBelow fuel n.right
      if left ≠ right then
        throw (.blackHeight i left right)
      return (left + (if n.color = .black then 1 else 0), 1 + leftCount + rightCount)

/-- The keys have to ascend; `position` is the place of the first of them in the order. -/
def checkOrder [Ord K] : (position : Nat) → List K → Except Violation Unit
  | position, a :: b :: rest =>
    if compare a b = .lt then checkOrder (position + 1) (b :: rest)
    else .error (.order (position + 1))
  | _, _ => .ok ()

def checkRoot (t : Tree K V) : Except Violation Unit :=
  match t.root with
  | none => .ok ()
  | some i =>
    match t.node? i with
    | none => .error (.parentLink i)
    | some n =>
      if n.color = .red then .error .redRoot
      else if n.parent ≠ none then .error (.parentLink i)
      else .ok ()

/-- Check a whole tree. The answer is its black height, in which the missing children count. -/
def check [Ord K] (t : Tree K V) : Except Violation Nat := do
  t.checkRoot
  let (blackHeight, reachable) ← t.checkBelow t.size t.root
  if reachable ≠ t.size then
    throw (.count reachable t.size)
  checkOrder 0 t.keys
  return blackHeight

end Tree

end Dataflow.RedBlack

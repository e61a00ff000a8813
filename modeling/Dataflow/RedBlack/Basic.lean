/-!
# Red-black trees in an arena

The nodes of a search tree lie in an array, the arena, and name each other by slot. A node has a
link to its parent, so that a walk in order needs no stack.

* `Node`, `Tree`: the data. Nothing is assumed of the links; what a tree has to satisfy is checked
  by `Tree.check` (module `Dataflow.RedBlack.Violation`).
* `Tree.search`, `Tree.descend`, `Tree.successor`: the walks.
* `Tree.rotate`, `Tree.replaceChild`: the changes of shape.

Every step that follows a link to a slot which is not there gives `none`, and so does a loop that
takes more steps than there are nodes. A tree that is built by insertions and removals meets
neither. What differs only in left and right is one definition with a `Side`.
-/

namespace Dataflow.RedBlack

/-! ## Nodes -/

/-- The color of a node. -/
inductive Color
  /-- Never above another red node. -/
  | red
  /-- Counted along every path. -/
  | black
  deriving DecidableEq, Repr

/-- The two sides of a node. -/
inductive Side
  | left
  | right
  deriving DecidableEq, Repr

def Side.other : Side → Side
  | left => right
  | right => left

@[simp] theorem Side.other_other (side : Side) : side.other.other = side := by cases side <;> rfl

theorem Side.eq_or_eq_other (a b : Side) : a = b ∨ a = b.other := by
  cases a <;> cases b <;> decide

abbrev Link := Option Nat

/-- A node of a tree. -/
structure Node (K V : Type) where
  key : K
  value : V
  parent : Link
  left : Link
  right : Link
  color : Color
  deriving DecidableEq, Repr

namespace Node

variable {K V : Type}

def entry (n : Node K V) : K × V := (n.key, n.value)

def child (n : Node K V) : Side → Link
  | .left => n.left
  | .right => n.right

def setChild (side : Side) (l : Link) (n : Node K V) : Node K V :=
  match side with
  | .left => { n with left := l }
  | .right => { n with right := l }

def setParent (l : Link) (n : Node K V) : Node K V := { n with parent := l }

def setColor (c : Color) (n : Node K V) : Node K V := { n with color := c }

def setValue (v : V) (n : Node K V) : Node K V := { n with value := v }

end Node

/-! ## Trees -/

/-- An arena of nodes and the slot of the root. -/
structure Tree (K V : Type) where
  nodes : Array (Node K V) := #[]
  root : Link := none
  deriving DecidableEq, Repr

namespace Tree

variable {K V : Type}

def empty : Tree K V := {}

def size (t : Tree K V) : Nat := t.nodes.size

def isEmpty (t : Tree K V) : Bool := t.nodes.isEmpty

def node? (t : Tree K V) (i : Nat) : Option (Node K V) := t.nodes[i]?

def update (t : Tree K V) (i : Nat) (f : Node K V → Node K V) : Option (Tree K V) :=
  if i < t.nodes.size then some { t with nodes := t.nodes.modify i f } else none

/-- Change the node that a link leads to, if it leads anywhere. -/
def updateLink (t : Tree K V) (l : Link) (f : Node K V → Node K V) : Option (Tree K V) :=
  match l with
  | none => some t
  | some i => t.update i f

/-- The color at the end of a link; where there is no node, it is black. -/
def color (t : Tree K V) : Link → Option Color
  | none => some .black
  | some i => (t.node? i).map (·.color)

/-! ## Walks -/

/-- Where a key belongs. -/
inductive Place
  | present (slot : Nat)
  /-- It is absent and would become a child on a side of a node, or the root. -/
  | vacant (parent : Option (Nat × Side))
  deriving DecidableEq, Repr

/-- Search for a key below a link that hangs at `at`. -/
def searchFrom [Ord K] (t : Tree K V) (k : K) :
    (fuel : Nat) → Link → (parent : Option (Nat × Side)) → Option Place
  | _, none, parent => some (.vacant parent)
  | 0, some _, _ => none
  | fuel + 1, some i, _ => do
    let n ← t.node? i
    match compare k n.key with
    | .lt => t.searchFrom k fuel n.left (some (i, .left))
    | .gt => t.searchFrom k fuel n.right (some (i, .right))
    | .eq => some (.present i)

def search [Ord K] (t : Tree K V) (k : K) : Option Place := t.searchFrom k t.size t.root none

def descendFrom (t : Tree K V) (side : Side) : (fuel : Nat) → Nat → Option Nat
  | 0, _ => none
  | fuel + 1, i => do
    let n ← t.node? i
    match n.child side with
    | none => some i
    | some j => t.descendFrom side fuel j

/-- The slot at the end of a side, below a given one. -/
def descend (t : Tree K V) (side : Side) (i : Nat) : Option Nat := t.descendFrom side t.size i

/-- Go up for as long as the way up comes from the right. -/
def climbFrom (t : Tree K V) : (fuel : Nat) → (i : Nat) → Link → Option Link
  | _, _, none => some none
  | 0, _, some _ => none
  | fuel + 1, i, some p => do
    let n ← t.node? p
    if n.right = some i then t.climbFrom fuel p n.parent else some (some p)

/-- The slot after a slot in the order of the tree. -/
def successor (t : Tree K V) (i : Nat) : Option Link := do
  let n ← t.node? i
  match n.right with
  | some r => (t.descend .left r).map some
  | none => t.climbFrom t.size i n.parent

def heightFrom (t : Tree K V) : (fuel : Nat) → Link → Nat
  | _, none => 0
  | 0, some _ => 0
  | fuel + 1, some i =>
    match t.node? i with
    | none => 0
    | some n => 1 + Nat.max (t.heightFrom fuel n.left) (t.heightFrom fuel n.right)

def height (t : Tree K V) : Nat := t.heightFrom t.size t.root

/-! ## Changes of shape -/

/-- Let a parent, or the root if there is none, name another child in place of `old`. The child on
the side `first` is looked at; if that is not `old`, the child across from it is replaced. -/
def replaceChild (t : Tree K V) (first : Side) (parent : Link) (old : Nat) (new : Link) :
    Option (Tree K V) :=
  match parent with
  | none => some { t with root := new }
  | some p => do
    let n ← t.node? p
    t.update p (Node.setChild (if n.child first = some old then first else first.other) new)

/-- Turn the edge below `x`: the child across from `side` takes the place of `x`, and `x` becomes
its child on `side`. That is also the side on which the parent of `x` is asked for `x` first. -/
def rotate (t : Tree K V) (side : Side) (x : Nat) : Option (Tree K V) := do
  let nx ← t.node? x
  let y ← nx.child side.other
  let ny ← t.node? y
  let inner := ny.child side
  let t ← t.update x (Node.setChild side.other inner)
  let t ← t.updateLink inner (Node.setParent (some x))
  let t ← t.update y (Node.setParent nx.parent)
  let t ← t.replaceChild side nx.parent x (some y)
  let t ← t.update y (Node.setChild side (some x))
  t.update x (Node.setParent (some y))

/-! ## Reading -/

/-- The entry of a key, with the key as the tree keeps it. -/
def find? [Ord K] (t : Tree K V) (k : K) : Option (K × V) :=
  match t.search k with
  | some (.present i) => (t.node? i).map (·.entry)
  | _ => none

def get? [Ord K] (t : Tree K V) (k : K) : Option V := (t.find? k).map (·.2)

def contains [Ord K] (t : Tree K V) (k : K) : Bool := (t.find? k).isSome

def extreme? (t : Tree K V) (side : Side) : Option (K × V) := do
  let root ← t.root
  let i ← t.descend side root
  let n ← t.node? i
  return n.entry

def min? (t : Tree K V) : Option (K × V) := t.extreme? .left

def max? (t : Tree K V) : Option (K × V) := t.extreme? .right

/-- Change the value of a key in place. The new value is given too. -/
def modify [Ord K] (t : Tree K V) (k : K) (f : V → V) : Option V × Tree K V :=
  match t.search k with
  | some (.present i) =>
    match t.node? i with
    | some n => (some (f n.value), { t with nodes := t.nodes.modify i (Node.setValue (f n.value)) })
    | none => (none, t)
  | _ => (none, t)

end Tree

end Dataflow.RedBlack

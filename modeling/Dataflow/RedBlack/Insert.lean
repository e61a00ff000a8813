import Dataflow.RedBlack.Basic

/-!
# Insertion into a red-black tree

A new node is a red leaf. If its parent is red too, the pair is moved up the tree by recoloring
until a rotation removes it or the root is reached.

* `Tree.repairRed`: the way up.
* `Tree.insert`: insertion; the value of a key that is present is replaced, and its key is kept.
* `Tree.ofList`: repeated insertion.
-/

namespace Dataflow.RedBlack

namespace Tree

variable {K V : Type}

def blackenRoot (t : Tree K V) : Option (Tree K V) := t.updateLink t.root (Node.setColor .black)

/-- The grandparent `g` of a red pair has a black child across from the pair: turn the pair
outward if it is bent, and rotate it over `g`. -/
def straighten (t : Tree K V) (side : Side) (z p : Nat) : Option (Tree K V) := do
  let np ← t.node? p
  let (z, t) ←
    if np.child side.other = some z then (t.rotate side p).map (p, ·) else some (z, t)
  let p ← (← t.node? z).parent
  let g ← (← t.node? p).parent
  let t ← t.update p (Node.setColor .black)
  let t ← t.update g (Node.setColor .red)
  t.rotate side.other g

/-- Remove the red pair of `z` and its parent, if there is one, from the path up to the root. A
red parent is never the root, so that the pair has a grandparent. -/
def repairRed (t : Tree K V) : (fuel : Nat) → (z : Nat) → Option (Tree K V)
  | 0, _ => none
  | fuel + 1, z => do
    let nz ← t.node? z
    match nz.parent with
    | none => t.blackenRoot
    | some p =>
      let np ← t.node? p
      if np.color = .black then
        t.blackenRoot
      else
        let g ← np.parent
        let ng ← t.node? g
        let side := if ng.left = some p then Side.left else Side.right
        let uncle := ng.child side.other
        if (← t.color uncle) = .red then
          let t ← t.update p (Node.setColor .black)
          let t ← t.updateLink uncle (Node.setColor .black)
          let t ← t.update g (Node.setColor .red)
          t.repairRed fuel g
        else
          let t ← t.straighten side z p
          t.blackenRoot

def attach (t : Tree K V) (k : K) (v : V) (parent : Option (Nat × Side)) : Option (Tree K V) :=
  let i := t.size
  let t : Tree K V :=
    { t with nodes := t.nodes.push ⟨k, v, parent.map (·.1), none, none, .red⟩ }
  match parent with
  | none => some { t with root := some i }
  | some (p, side) => t.update p (Node.setChild side (some i))

/-- Insertion with all its steps checked. The value that the key had before comes first. -/
def insert? [Ord K] (t : Tree K V) (k : K) (v : V) : Option (Option V × Tree K V) := do
  match ← t.search k with
  | .present i =>
    let n ← t.node? i
    let t ← t.update i (Node.setValue v)
    return (some n.value, t)
  | .vacant parent =>
    let i := t.size
    let t ← t.attach k v parent
    let t ← t.repairRed t.size i
    return (none, t)

/-- Give a key a value. The value that it had before comes first. -/
def insert [Ord K] (t : Tree K V) (k : K) (v : V) : Option V × Tree K V :=
  (t.insert? k v).getD (none, t)

/-- The tree of a list of entries, inserted in their order. -/
def ofList [Ord K] (entries : List (K × V)) : Tree K V :=
  entries.foldl (fun t e => (t.insert e.1 e.2).2) empty

end Tree

end Dataflow.RedBlack

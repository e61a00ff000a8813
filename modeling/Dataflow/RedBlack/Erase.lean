import Dataflow.RedBlack.Insert

/-!
# Removal from a red-black tree

A node with two children gives its place to its successor. If a black node went away, the path
through its place lacks one; the lack is moved up the tree until a recoloring or a rotation fills
it. At last the slot is released: the last node of the arena moves into it.

* `Tree.detach`: takes a node out of the tree and leaves its slot.
* `Tree.repairBlack`: the way up; `Tree.removeNode` is both.
* `Tree.compact`: gives a slot back.
* `Tree.erase`: all of it.
-/

namespace Dataflow.RedBlack

namespace Tree

variable {K V : Type}

/-- Put one subtree in the place of another. The parent is asked for its left child first. -/
def graft (t : Tree K V) (u : Nat) (v : Link) : Option (Tree K V) := do
  let nu ← t.node? u
  let t ← t.replaceChild .left nu.parent u v
  t.updateLink v (Node.setParent nu.parent)

/-- The sibling `w` across from `side` under `p` is black and has a red child: rotate so that the
path on `side` gains a black node. -/
def borrowBlack (t : Tree K V) (side : Side) (p w : Nat) : Option (Tree K V) := do
  let nw ← t.node? w
  let (w, t) ←
    if (← t.color (nw.child side.other)) = .black then do
      let t ← t.updateLink (nw.child side) (Node.setColor .black)
      let t ← t.update w (Node.setColor .red)
      let t ← t.rotate side.other w
      let w ← (← t.node? p).child side.other
      pure (w, t)
    else
      pure (w, t)
  let np ← t.node? p
  let t ← t.update w (Node.setColor np.color)
  let t ← t.update p (Node.setColor .black)
  let t ← t.updateLink ((← t.node? w).child side.other) (Node.setColor .black)
  t.rotate side p

/-- The path through the link `x` under `xp` lacks a black node: fill the lack on the way up. A
link that is not the root's hangs under a node, and its sibling exists since the lack is real. -/
def repairBlack (t : Tree K V) : (fuel : Nat) → (x xp : Link) → Option (Tree K V)
  | 0, _, _ => none
  | fuel + 1, x, xp => do
    if x = t.root ∨ (← t.color x) = .red then
      t.updateLink x (Node.setColor .black)
    else
      let p ← xp
      let np ← t.node? p
      let side := if np.left = x then Side.left else Side.right
      let w ← np.child side.other
      let (w, t) ←
        if (← t.color (some w)) = .red then do
          let t ← t.update w (Node.setColor .black)
          let t ← t.update p (Node.setColor .red)
          let t ← t.rotate side p
          let w ← (← t.node? p).child side.other
          pure (w, t)
        else
          pure (w, t)
      let nw ← t.node? w
      if (← t.color nw.left) = .black ∧ (← t.color nw.right) = .black then
        let t ← t.update w (Node.setColor .red)
        t.repairBlack fuel (some p) (← t.node? p).parent
      else
        let t ← t.borrowBlack side p w
        t.blackenRoot

/-- A tree from which a node was taken. Its slot is still in the arena. -/
structure Detached (K V : Type) where
  tree : Tree K V
  /-- The color that went away. -/
  removed : Color
  /-- The link through which a black node is lacking if the color was black. -/
  gap : Link
  /-- The node under which the link hangs. -/
  gapParent : Link

/-- Take the node in a slot out of the tree, without a repair. -/
def detach (t : Tree K V) (z : Nat) : Option (Detached K V) := do
  let nz ← t.node? z
  match nz.left, nz.right with
  | none, right =>
    let t ← t.graft z right
    return ⟨t, nz.color, right, nz.parent⟩
  | some l, none =>
    let t ← t.graft z (some l)
    return ⟨t, nz.color, some l, nz.parent⟩
  | some l, some r =>
    let y ← t.descend .left r
    let ny ← t.node? y
    let (gapParent, t) ←
      if ny.parent = some z then
        pure (some y, t)
      else do
        let t ← t.graft y ny.right
        let t ← t.update y (Node.setChild .right (some r))
        let t ← t.update r (Node.setParent (some y))
        pure (ny.parent, t)
    let t ← t.graft z (some y)
    let t ← t.update y (Node.setChild .left (some l))
    let t ← t.update l (Node.setParent (some y))
    let t ← t.update y (Node.setColor nz.color)
    return ⟨t, ny.color, ny.right, gapParent⟩

def removeNode (t : Tree K V) (z : Nat) : Option (Tree K V) := do
  let d ← t.detach z
  if d.removed = .black then
    d.tree.repairBlack (d.tree.size + 1) d.gap d.gapParent
  else
    return d.tree

/-- Let all links to a moved node follow it to its new slot. -/
def relink (t : Tree K V) (old new : Nat) : Option (Tree K V) := do
  let t : Tree K V := if t.root = some old then { t with root := some new } else t
  let n ← t.node? new
  let t ←
    match n.parent with
    | none => some t
    | some p => do
      let np ← t.node? p
      if np.left = some old then t.update p (Node.setChild .left (some new))
      else if np.right = some old then t.update p (Node.setChild .right (some new))
      else some t
  let n ← t.node? new
  let t ← t.updateLink n.left (Node.setParent (some new))
  t.updateLink n.right (Node.setParent (some new))

/-- Give back the slot of a node that is no longer linked, moving the last node into it. -/
def compact (t : Tree K V) (z : Nat) : Option ((K × V) × Tree K V) := do
  let nz ← t.node? z
  let last := t.size - 1
  let moved ← t.node? last
  if z = last then
    return (nz.entry, { t with nodes := t.nodes.pop })
  else
    let t : Tree K V := { t with nodes := (t.nodes.setIfInBounds z moved).pop }
    let t ← t.relink last z
    return (nz.entry, t)

/-- Removal with all its steps checked. The removed entry comes first. -/
def erase? [Ord K] (t : Tree K V) (k : K) : Option (Option (K × V) × Tree K V) := do
  match ← t.search k with
  | .vacant _ => return (none, t)
  | .present z =>
    let t ← t.removeNode z
    let (e, t) ← t.compact z
    return (some e, t)

/-- Remove a key. The entry that it had comes first. -/
def erase [Ord K] (t : Tree K V) (k : K) : Option (K × V) × Tree K V :=
  (t.erase? k).getD (none, t)

end Tree

end Dataflow.RedBlack

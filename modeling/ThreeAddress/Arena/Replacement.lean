import ThreeAddress.Arena.Cursor

/-!
Replacing the nodes of an arena from the leaves up.

A visitor is asked for every node, once its children have given way, which nodes take its place.
-/

namespace ThreeAddress

/-- What takes the place of a node. A visitor may make nodes and change values. -/
abbrev Visitor (α : Type) := Nat → Edit α (List Nat)

namespace Edit

variable {α : Type}

def linkAll (parent : Option Nat) : List Nat → Edit α Unit
  | [] => return ()
  | id :: rest => do
    let index ← locate id
    change fun arena => arena.setParent index parent
    linkAll parent rest

/--
Replaces what is below a node, and asks for the nodes that take its place.

The result holds these nodes and all nodes visited, in order.
A node that is not among those in its own place is cut off, unless it is the root of the view.
-/
def replaceNode (visit : Visitor α) : Nat → Nat → Edit α (List Nat × List Nat)
  | 0, _ => throw .cyclicTree
  | bound + 1, id => do
    let before := (← node id).children
    -- The children give way from left to right, and only then is the node itself asked for.
    let results ← before.mapM (replaceNode visit bound)
    let children := (results.map Prod.fst).flatten
    -- Old links are cut before new ones are made, since a child may stay where it was.
    linkAll none before
    linkAll (some id) children
    change fun arena => arena.setChildren id children
    let replacement ← visit id
    -- A node that leaves the tree keeps neither children nor parent.
    if id ≠ (← get).root ∧ id ∉ replacement then
      change fun arena => (arena.setChildren id []).setParent id none
    return (replacement, (results.map Prod.snd).flatten ++ [id])

/-- Puts a node in the place of the root of the view, also among the children of its parent. -/
def replaceRoot (place : Option Nat × Option Nat) (id : Nat) : Edit α Unit := do
  let root := (← get).root
  change fun arena => (arena.setChildren root []).setParent root none
  match place with
  | (some parent, some position) =>
    let children := (← get).arena.childrenOf parent
    if position < children.length then
      change fun arena => arena.setChildren parent (children.set position id)
    else throw .outOfBounds
  | (some _, none) => throw .outOfBounds
  | (none, _) => pure ()
  linkAll place.1 [id]
  modify fun site => { site with root := id }

/-- Replaces the nodes of the view. Its root gives way only to exactly one other node. The result holds all nodes visited. -/
def replaceNodes (visit : Visitor α) : Edit α (List Nat) := do
  let site ← get
  -- The place in the surrounding tree is noted before the root can change its links.
  let place := (site.arena.parentOf site.root, site.arena.position? site.root)
  let (replacement, visited) ← replaceNode visit (site.arena.size + 1) site.root
  match replacement with
  | [id] => if id ≠ site.root then replaceRoot place id
  | _ => pure ()
  return visited

end Edit

end ThreeAddress

import ThreeAddress.Fault
import ThreeAddress.Tree.Basic

/-!
Arenas: ordered trees that can be changed in place.

Nodes are numbered in the order of their making and keep their numbers.
A node lists its children, and it links to its parent for the way up.
-/

namespace ThreeAddress

/-- A node of an arena. -/
structure ArenaNode (α : Type) where
  value : α
  parent : Option Nat := none
  children : List Nat := []
deriving DecidableEq, Repr

/-- The nodes in the order of their numbers. -/
structure Arena (α : Type) where
  nodes : List (ArenaNode α)
deriving DecidableEq, Repr

namespace Arena

variable {α : Type}

def single (value : α) : Arena α :=
  { nodes := [{ value }] }

def size (arena : Arena α) : Nat :=
  arena.nodes.length

def get? (arena : Arena α) (id : Nat) : Option (ArenaNode α) :=
  arena.nodes[id]?

/-- The children of a node. A node that is not there has none. -/
def childrenOf (arena : Arena α) (id : Nat) : List Nat :=
  (arena.get? id).elim [] ArenaNode.children

def parentOf (arena : Arena α) (id : Nat) : Option Nat :=
  (arena.get? id).bind ArenaNode.parent

def modify (arena : Arena α) (id : Nat) (change : ArenaNode α → ArenaNode α) : Arena α :=
  { nodes := arena.nodes.modify id change }

/-- Adds a node without parent and children. -/
def push (arena : Arena α) (value : α) : Arena α :=
  { nodes := arena.nodes ++ [{ value }] }

def setValue (arena : Arena α) (id : Nat) (value : α) : Arena α :=
  arena.modify id fun node => { node with value }

def setParent (arena : Arena α) (id : Nat) (parent : Option Nat) : Arena α :=
  arena.modify id fun node => { node with parent }

def setChildren (arena : Arena α) (id : Nat) (children : List Nat) : Arena α :=
  arena.modify id fun node => { node with children }

/-- Makes a node behind the children of another. -/
def append (arena : Arena α) (parent : Nat) (value : α) : Arena α :=
  let linked := (arena.push value).setParent arena.size (some parent)
  linked.setChildren parent (arena.childrenOf parent ++ [arena.size])

/-- Makes nodes one by one behind the children of another, and gives their numbers. -/
def appendAll (arena : Arena α) (parent : Nat) : List α → List Nat × Arena α
  | [] => ([], arena)
  | value :: rest =>
    let (ids, after) := (arena.append parent value).appendAll parent rest
    (arena.size :: ids, after)

def position? (arena : Arena α) (id : Nat) : Option Nat := do
  -- The link only names the parent, whose list decides on the place.
  let parent ← arena.parentOf id
  (arena.childrenOf parent).idxOf? id

/--
The nodes below and including a node in pre-order, each with its depth.

Children of nodes that are not to be entered are left out.
The first argument bounds the depth, which in a tree is less than the number of nodes.
-/
def walkFrom (arena : Arena α) (enters : α → Bool) :
    Nat → Nat → Nat → Except Fault (List (Nat × Nat))
  -- A path longer than the number of nodes passes some node twice.
  | 0, _, _ => .error .cyclicTree
  | bound + 1, depth, id =>
    match arena.get? id with
    | none => .error (.noSuchNode id)
    | some node =>
      if enters node.value then do
        let below ← node.children.mapM (walkFrom arena enters bound (depth + 1))
        return (id, depth) :: below.flatten
      else return [(id, depth)]

/-- The nodes from a root on in pre-order, each with its depth. -/
def walk (arena : Arena α) (root : Nat) (enters : α → Bool := fun _ => true) :
    Except Fault (List (Nat × Nat)) :=
  arena.walkFrom enters (arena.size + 1) 0 root

def leaves (arena : Arena α) (root : Nat) : Except Fault (List Nat) := do
  return ((← arena.walk root).map Prod.fst).filter fun id => (arena.childrenOf id).isEmpty

/-- The tree below and including a node. The first argument bounds the depth. -/
def treeFrom (arena : Arena α) : Nat → Nat → Except Fault (Tree α)
  | 0, _ => .error .cyclicTree
  | bound + 1, id =>
    match arena.get? id with
    | none => .error (.noSuchNode id)
    | some node => do
      let children ← node.children.mapM (treeFrom arena bound)
      return .node id node.value children

def tree (arena : Arena α) (root : Nat) : Except Fault (Tree α) :=
  arena.treeFrom (arena.size + 1) root

end Arena

end ThreeAddress

import ThreeAddress.Text.Basic

/-! Ordered trees, and replacing their nodes from the leaves up. -/

namespace ThreeAddress

/-- A node with its number, its value and its children in order. -/
inductive Tree (α : Type) where
  | node (id : Nat) (value : α) (children : List (Tree α))
deriving Repr

namespace Tree

variable {α : Type}

def id : Tree α → Nat
  | node id _ _ => id

def value : Tree α → α
  | node _ value _ => value

def children : Tree α → List (Tree α)
  | node _ _ children => children

def isLeaf (tree : Tree α) : Bool :=
  tree.children.isEmpty

mutual

/-- The nodes in pre-order, each with its depth, the root being at the given one. -/
def nodesFrom (depth : Nat) : Tree α → List (Nat × Tree α)
  | node id value children => (depth, node id value children) :: forestNodesFrom (depth + 1) children
termination_by structural tree => tree

def forestNodesFrom (depth : Nat) : List (Tree α) → List (Nat × Tree α)
  | [] => []
  | tree :: rest => nodesFrom depth tree ++ forestNodesFrom depth rest
termination_by structural trees => trees

end

def nodes (tree : Tree α) : List (Nat × Tree α) :=
  tree.nodesFrom 0

def size (tree : Tree α) : Nat :=
  tree.nodes.length

def leaves (tree : Tree α) : List (Tree α) :=
  (tree.nodes.map Prod.snd).filter isLeaf

/-- What takes the place of a node, given the node once its children have given way. -/
abbrev Replacement (α : Type) := Tree α → List (Tree α)

mutual

/-- The node once its children have given way, itself still in place. -/
def replaceBelow (replace : Replacement α) : Tree α → Tree α
  | node id value children => node id value (replaceForest replace children)
termination_by structural tree => tree

/-- Replaces the nodes of trees one after the other and joins what takes their places. -/
def replaceForest (replace : Replacement α) : List (Tree α) → List (Tree α)
  | [] => []
  | tree :: rest => replace (replaceBelow replace tree) ++ replaceForest replace rest
termination_by structural trees => trees

end

/-- Replaces the nodes of a tree. The root gives way only to exactly one node. -/
def replaceNodes (replace : Replacement α) (tree : Tree α) : Tree α :=
  -- Something must stay at the root, so only a single node can take its place.
  let below := replaceBelow replace tree
  match replace below with
  | [only] => only
  | _ => below

end Tree

end ThreeAddress

import ThreeAddress.Arena.Replacement
import ThreeAddress.Syntax.Tree

/-!
From parse trees to abstract syntax trees.

Three passes remove what only the grammar needs: nodes that stand for sequencing, nodes that hold nothing or one node only, and grouping brackets.
-/

namespace ThreeAddress

/-- The non-terminals that stand for sequencing only, and the categories of the grouping brackets. -/
structure Normalizer where
  wrappers : List Text
  opening : Category
  closing : Category
deriving DecidableEq, Repr

namespace Normalizer

/-- Whether a symbol stands for sequencing only. -/
def isWrapper (normalizer : Normalizer) : Symbol → Bool
  | .nonterminal name => normalizer.wrappers.contains name
  | .terminal .. => false

def unwrap (normalizer : Normalizer) : Tree.Replacement Label := fun tree =>
  if normalizer.isWrapper tree.value.symbol then tree.children else [tree]

/-- Non-terminals without children vanish, and those with one child give way to it. -/
def shrink : Tree.Replacement Label := fun tree =>
  if tree.value.symbol.isTerminal then [tree]
  else
    match tree.children with
    | [] => []
    | [only] => [only]
    | _ => [tree]

/-- A node that holds one node in brackets gives way to that node. -/
def ungroup (normalizer : Normalizer) : Tree.Replacement Label := fun tree =>
  match tree.children with
  | [first, inner, last] =>
    if first.value.symbol.hasCategory normalizer.opening &&
        last.value.symbol.hasCategory normalizer.closing then [inner] else [tree]
  | _ => [tree]

/-- A pass over a tree. -/
inductive Pass where
  | unwrap
  | shrink
  | ungroup
deriving DecidableEq, Repr

def run (normalizer : Normalizer) : Pass → SyntaxTree → SyntaxTree
  | .unwrap, tree => tree.replaceNodes normalizer.unwrap
  | .shrink, tree => tree.replaceNodes shrink
  | .ungroup, tree => tree.replaceNodes normalizer.ungroup

def normalize (normalizer : Normalizer) (tree : SyntaxTree) : SyntaxTree :=
  -- Brackets show as three children only once nodes that hold a single node are gone.
  normalizer.run .ungroup (normalizer.run .shrink (normalizer.run .unwrap tree))

/-- The visitor that makes a pass in place. -/
def visitor (normalizer : Normalizer) : Pass → Visitor Label
  | .unwrap, id => do
    let node ← Edit.node id
    return if normalizer.isWrapper node.value.symbol then node.children else [id]
  | .shrink, id => do
    let node ← Edit.node id
    if node.value.symbol.isTerminal then return [id]
    else
      match node.children with
      | [] => return []
      | [only] => return [only]
      | _ => return [id]
  | .ungroup, id => do
    match (← Edit.node id).children with
    | [first, inner, last] =>
      -- The values of the brackets are read from the arena, where they are nodes of their own.
      let left := (← Edit.node first).value.symbol
      let right := (← Edit.node last).value.symbol
      return if left.hasCategory normalizer.opening && right.hasCategory normalizer.closing
        then [inner] else [id]
    | _ => return [id]

/-- Makes all passes over a view, in place. -/
def normalizeView (normalizer : Normalizer) : Edit Label Unit := do
  let _ ← Edit.replaceNodes (normalizer.visitor .unwrap)
  let _ ← Edit.replaceNodes (normalizer.visitor .shrink)
  let _ ← Edit.replaceNodes (normalizer.visitor .ungroup)

end Normalizer

end ThreeAddress

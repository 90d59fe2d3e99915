import ThreeAddress.Diagnostic

/-! Requests that break the contract of an operation. -/

namespace ThreeAddress

/-- Why an operation refused a request that its caller should not have made. -/
inductive Fault where
  | outOfBounds
  | unnamedNonterminal
  | reservedTerminal (name : Text) (category : Int)
  | missingGrammar
  | missingTable
  | matrixDimensions (rows columns : Int)
  | matrixIndex (row column rows columns : Int)
  /-- A lookahead outside the columns of a parsing table. -/
  | lookaheadRange (category : Int)
  /-- A syntax error where those are not to be reported but to stop the program. -/
  | mismatch (diagnostic : Diagnostic)
  /-- A tree without a way to compare its values. -/
  | missingEquality
  | noSuchNode (node : Int)
  | noSuchChild (node : Int) (index : Int)
  | insertPosition (position : Int) (node : Int)
  | ownChild
  | alreadyOwned (node parent : Int)
  | deleteRoot
  | liftRoot
  /-- A node below itself, so that a walk has no end. -/
  | cyclicTree
  | emptyScopes
  | noGlobalScope
  | popGlobalScope
deriving DecidableEq, Repr

namespace Fault

def message : Fault → Text
  | outOfBounds => "runtime error"
  | unnamedNonterminal => "ll: empty name for non-terminal"
  | reservedTerminal name category =>
    "ll: terminal " ++ name.quoted ++ " with reserved category " ++ Text.ofInt category
  | missingGrammar => "ll.Analyze: grammar is nil"
  | missingTable => "parser.New: table is nil"
  | matrixDimensions rows columns =>
    "sparse: illegal matrix dimensions " ++ Text.ofInt rows ++ " x " ++ Text.ofInt columns
  | matrixIndex row column rows columns =>
    "sparse: index (" ++ Text.ofInt row ++ "," ++ Text.ofInt column ++ ") out of range " ++
      Text.ofInt rows ++ " x " ++ Text.ofInt columns
  | lookaheadRange category =>
    "ll.Table: lookahead category " ++ Text.ofInt category ++ " out of range"
  | mismatch diagnostic => diagnostic.message
  | missingEquality => "tree.New needs an equality function"
  | noSuchNode node => "tree: node " ++ Text.ofInt node ++ " does not exist"
  | noSuchChild node index =>
    "tree: node " ++ Text.ofInt node ++ " has no child #" ++ Text.ofInt index
  | insertPosition position node =>
    "tree: cannot insert at position " ++ Text.ofInt position ++ " of node " ++ Text.ofInt node
  | ownChild => "tree: node cannot become its own child"
  | alreadyOwned node parent =>
    "tree: node " ++ Text.ofInt node ++ " already owned by node " ++ Text.ofInt parent
  | deleteRoot => "tree: cannot delete root node"
  | liftRoot => "tree: cannot replace root node with its children"
  | cyclicTree => "tree: walk without end"
  | emptyScopes => "attempt to access scope from empty stack"
  | noGlobalScope => "attempt to access global scope from empty stack"
  | popGlobalScope => "attempt to pop global scope"

end Fault

end ThreeAddress

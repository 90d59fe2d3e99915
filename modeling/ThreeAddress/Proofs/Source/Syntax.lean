import ThreeAddress.Compiler

/-!
Programs without their spelling.

A program is read from the abstract syntax tree that normalization leaves.
Names and literals are their handles, and operands are joined by their operators from left to right.
-/

namespace ThreeAddress.Source

/-- An expression. -/
inductive Expression where
  | name (handle : Handle)
  | literal (handle : Handle)
  | binary (operation : BinaryOperation) (left right : Expression)
deriving DecidableEq, Repr

/-- A call of a function. -/
structure Call where
  function : Handle
  arguments : List Expression
deriving DecidableEq, Repr

/-- A statement. Statements in a row are joined, and a conditional without an alternative has an empty one. -/
inductive Statement where
  | skip
  | assign (target : Handle) (value : Expression)
  | assignCall (target : Handle) (call : Call)
  | call (call : Call)
  | ret (value : Expression)
  | seq (first second : Statement)
  | cond (test : Expression) (yes no : Statement)
  | loop (test : Expression) (body : Statement)
deriving DecidableEq, Repr

/-- A function: what its name and its parameters stand for, and its body. -/
structure Function where
  handle : Handle
  params : List Handle
  body : Statement
deriving DecidableEq, Repr

/-- A program. -/
structure Program where
  functions : List Function
  main : Statement
deriving DecidableEq, Repr

def Expression.ofLeaf? (label : Label) : Option Expression :=
  match label.symbol, label.token with
  | .terminal _ category, some token =>
    if category = Language.identifier then some (.name token.handle)
    else if category = Language.constant ∨ category = Language.trueWord ∨
        category = Language.falseWord then some (.literal token.handle)
    else none
  | _, _ => none

mutual

def Expression.read? : SyntaxTree → Option Expression
  | .node _ label [] => Expression.ofLeaf? label
  | .node _ label (first :: rest) =>
    if label.symbol.isTerminal then none
    else do Expression.readTail? (← Expression.read? first) rest
termination_by structural tree => tree

/-- An expression joined with the operands behind it, one after the other. -/
def Expression.readTail? (left : Expression) : List SyntaxTree → Option Expression
  | [] => some left
  | [_] => none
  | operator :: operand :: rest => do
    let operation ← operator.value.symbol.category?.bind BinaryOperation.ofCategory?
    Expression.readTail? (.binary operation left (← Expression.read? operand)) rest
termination_by structural trees => trees

end

/-- The expressions between commas. -/
def Call.readArguments? : List SyntaxTree → Option (List Expression)
  | [] => some []
  | tree :: rest =>
    if tree.value.symbol.hasCategory Language.comma then readArguments? rest
    else do return (← Expression.read? tree) :: (← readArguments? rest)

/-- The call of a tree. Its arguments stand between the parentheses. -/
def Call.read? (tree : SyntaxTree) : Option Call :=
  match tree.children with
  | _ :: callee :: _ :: rest =>
    if rest.isEmpty then none
    else do return { function := callee.value.handle, arguments := ← readArguments? rest.dropLast }
  | _ => none

namespace Statement

/-- A statement that holds no other statements. -/
def readSimple? (tree : SyntaxTree) : Option Statement :=
  if tree.value.symbol = .nonterminal "DECL" then
    match tree.children with
    | [_, _, _, _] => some skip
    | [_, _, place, _, value, _] => do return assign place.value.handle (← Expression.read? value)
    | _ => none
  else if tree.value.symbol = .nonterminal "ASSIGN" then
    match tree.children with
    | [place, _, source, _] =>
      if source.value.symbol = .nonterminal "CALL" then do
        return assignCall place.value.handle (← Call.read? source)
      else do return assign place.value.handle (← Expression.read? source)
    | _ => none
  else if tree.value.symbol = .nonterminal "CALLSTMT" then
    match tree.children with
    | [source, _] => do return call (← Call.read? source)
    | _ => none
  else if tree.value.symbol = .nonterminal "RETURN" then
    match tree.children with
    | [_, value, _] => do return ret (← Expression.read? value)
    | _ => none
  else none

/-- Whether the branch with the given children has no test. -/
def lacksTest (children : List SyntaxTree) : Bool :=
  children.head?.any fun word => word.value.symbol.hasCategory Language.elseWord

/--
A branch of a conditional, given what its body and the branches behind it read as.

The last branch has no test, and then no branch is behind it.
-/
def joinBranch? (children : List SyntaxTree) (body rest : Option Statement) : Option Statement :=
  if lacksTest children then
    if children.getLast?.any fun last => last.value.symbol == .nonterminal "ELSE" then none
    else body
  else do
    let test ← children[2]?
    return cond (← Expression.read? test) (← body) (← rest)

mutual

def read? : SyntaxTree → Option Statement
  | .node id label children =>
    if label.symbol = .nonterminal "IF" then
      if lacksTest children then none
      else joinBranch? children (readBlock? children) (readRest? children)
    else if label.symbol = .nonterminal "LOOP" then do
      let test ← children[2]?
      return loop (← Expression.read? test) (← readBlock? children)
    else readSimple? (.node id label children)
termination_by structural tree => tree

/-- A branch behind the first. -/
def readBranch? : SyntaxTree → Option Statement
  | .node _ _ children => joinBranch? children (readBlock? children) (readRest? children)
termination_by structural tree => tree

/-- The branches from the one that is the last of some nodes, if there is one. -/
def readRest? : List SyntaxTree → Option Statement
  | [] => none
  | [last] => if last.value.symbol = .nonterminal "ELSE" then readBranch? last else some skip
  | _ :: second :: rest => readRest? (second :: rest)
termination_by structural trees => trees

/-- The statements between the first pair of braces. -/
def readBlock? : List SyntaxTree → Option Statement
  | [] => none
  | tree :: rest =>
    if tree.value.symbol.hasCategory Language.openBrace then readStatements? rest
    else readBlock? rest
termination_by structural trees => trees

def readStatements? : List SyntaxTree → Option Statement
  | [] => none
  | tree :: rest =>
    if tree.value.symbol.hasCategory Language.closeBrace then some skip
    else do return seq (← read? tree) (← readStatements? rest)
termination_by structural trees => trees

end

end Statement

/-- The parameters among some nodes. -/
def Function.readParams? : List SyntaxTree → Option (List Handle)
  | [] => some []
  | tree :: rest =>
    if tree.value.symbol = .nonterminal "PARAM" then do
      let name ← tree.children[1]?
      return name.value.handle :: (← readParams? rest)
    else readParams? rest

def Function.read? (tree : SyntaxTree) : Option Function := do
  let name ← tree.children[2]?
  return {
    handle := name.value.handle
    params := ← readParams? tree.children
    body := ← Statement.readBlock? tree.children }

namespace Program

/-- The statements up to the word that closes the main block. -/
def readMain? : List SyntaxTree → Option Statement
  | [] => none
  | tree :: rest =>
    if tree.value.symbol.hasCategory Language.endWord then
      if rest.isEmpty then some .skip else none
    else do return .seq (← Statement.read? tree) (← readMain? rest)

/-- The functions up to the word that opens the main block, and that block. -/
def readParts? : List SyntaxTree → Option Program
  | [] => none
  | tree :: rest =>
    if tree.value.symbol.hasCategory Language.startWord then do
      return { functions := [], main := ← readMain? rest }
    else if tree.value.symbol = .nonterminal "FUNC" then do
      let function ← Function.read? tree
      let program ← readParts? rest
      return { program with functions := function :: program.functions }
    else none

def read? (tree : SyntaxTree) : Option Program :=
  if tree.value.symbol = .nonterminal Language.programName then readParts? tree.children else none

end Program

end ThreeAddress.Source

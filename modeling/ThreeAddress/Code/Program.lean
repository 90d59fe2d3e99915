import ThreeAddress.Code.Expression
import ThreeAddress.Language.Grammar
import ThreeAddress.Language.Lexer

/-!
Code for statements and programs.

A program starts with a jump over its functions, each of which is a label and the code of its body.
-/

namespace ThreeAddress

/-- What the code of a statement depends on: constants, entry labels, and the function around it. -/
structure Context where
  constants : ConstantTable
  entries : List (Handle × Nat) := []
  function : Option FunctionEntry := none
deriving Repr

/-- The entry label of a function. Of several for one function the last counts. -/
def Context.entry? (context : Context) (function : Handle) : Option Nat :=
  context.entries.reverse.lookup function

namespace Generate

def target (tree : SyntaxTree) : Generate (Handle × VariableEntry) := do
  let handle := tree.value.handle
  match ← lookup? handle with
  | some (.var entry) => return (handle, entry)
  | some (.func entry) =>
    report (.semanticType ("assignment to " ++ entry.name) "variable" "function")
  | none => reject (.unresolvedTarget tree.value.text)

def assign (context : Context) (place source : SyntaxTree) : Generate Code := do
  -- The target is checked before the expression, so that its error is the one reported.
  let (handle, entry) ← target place
  let (code, result) ← expression context.constants source
  if result.type = entry.type then return code ++ [.move handle result.value]
  else
    report (.semanticType ("assignment to " ++ entry.name) entry.type.text result.type.text)

def callee (tree : SyntaxTree) : Generate (Handle × FunctionEntry) := do
  let handle := tree.value.handle
  match ← lookup? handle with
  | some (.func entry) => return (handle, entry)
  | some (.var entry) => report (.semanticType "call" "function" ("variable " ++ entry.name))
  | none => reject (.unresolvedCallee tree.value.text)

def isFunctionName (tree : SyntaxTree) : Generate Bool := do
  if tree.value.symbol.hasCategory Language.identifier then
    match ← lookup? tree.value.handle with
    | some (.func _) => return true
    | _ => return false
  else return false

/-- The code of the arguments of a call, with their types and their values. A function has no value. -/
def arguments (context : Context) :
    List SyntaxTree → Generate (Code × List (Argument × Option Value))
  | [] => return ([], [])
  | tree :: rest => do
    -- Commas separate arguments, and a bare function name is no value but still an argument.
    if tree.value.symbol.hasCategory Language.comma then arguments context rest
    else if ← isFunctionName tree then
      let (code, others) ← arguments context rest
      return (code, (.function, none) :: others)
    else
      let (code, result) ← expression context.constants tree
      let (more, others) ← arguments context rest
      return (code ++ more, (.value result.type, some result.value) :: others)

def bindParameters : List Handle → List (Option Value) → Code
  | param :: params, some value :: values => .move param value :: bindParameters params values
  | _, _ => []

/-- The code of a call, and the function called. The arguments stand between the parentheses. -/
def call (context : Context) (tree : SyntaxTree) : Generate (Code × FunctionEntry) := do
  let (handle, function) ← callee (← child tree 1)
  if tree.children.length < 4 then throw (.fault .outOfBounds)
  let (code, args) ← arguments context (tree.children.drop 3).dropLast
  -- All arguments are evaluated before the first parameter is bound.
  match (← get).symbols.checkCall function (args.map Prod.fst) with
  | .error error => report error
  | .ok () =>
    match context.entry? handle with
    | none => reject (.functionWithoutBody function.name)
    | some entry =>
      return (code ++ bindParameters function.params (args.map Prod.snd) ++ [.call entry], function)

def assignCall (context : Context) (place source : SyntaxTree) : Generate Code := do
  let (handle, entry) ← target place
  let (code, function) ← call context source
  if function.returns = entry.type then
    let slot ← returnSlot
    return code ++ [.move handle (.symbol slot)]
  else
    report (.semanticType ("assignment of " ++ function.name ++ " to " ++ entry.name)
      entry.type.text function.returns.text)

/-- The code of a return. The main block returns an integer. -/
def ret (context : Context) (source : SyntaxTree) : Generate Code := do
  let (code, result) ← expression context.constants source
  let want := context.function.elim .int FunctionEntry.returns
  let place := context.function.elim Language.mainScope FunctionEntry.name
  if result.type = want then
    let slot ← returnSlot
    return code ++ [.move slot result.value, .ret]
  else report (.semanticType ("return from " ++ place) want.text result.type.text)

/-- Whether a node is a further branch of a conditional. -/
def isBranch (tree : SyntaxTree) : Bool :=
  tree.value.symbol == .nonterminal "ELSE"

mutual

/-- The number of branches of a conditional, each but the first being the last child of the one before. -/
def branchCount : SyntaxTree → Except Fault Nat
  | .node id _ children => lastBranchCount id children
termination_by structural tree => tree

def lastBranchCount (id : Nat) : List SyntaxTree → Except Fault Nat
  | [] => .error (.noSuchChild id (-1))
  | [last] => if isBranch last then (branchCount last).map (· + 1) else .ok 1
  | _ :: second :: rest => lastBranchCount id (second :: rest)
termination_by structural trees => trees

end

/-- New labels in a row. The first of them is given back. -/
def newLabels (count : Nat) : Generate Nat :=
  modifyGet fun supply =>
    (supply.nextLabel, { supply with nextLabel := supply.nextLabel + count })

def simpleStatement (context : Context) (tree : SyntaxTree) : Generate Code :=
  match tree.value.symbol with
  | .terminal .. => reject (.notAStatement tree.value.text)
  | .nonterminal name =>
    if name = "DECL" then
      if tree.children.length = 6 then do
        assign context (← child tree 2) (← child tree 4)
      else return []
    else if name = "ASSIGN" then do
      let place ← child tree 0
      let source ← child tree 2
      if source.value.symbol = .nonterminal "CALL" then assignCall context place source
      else assign context place source
    else if name = "CALLSTMT" then do
      return (← call context (← child tree 0)).1
    else if name = "RETURN" then do
      ret context (← child tree 1)
    else reject (.notAStatement tree.value.symbol.text)

/--
The code of a branch, given how to make that of its body and that of the branches behind it.

Its label marks the code behind the branch, and the last label the end of the conditional.
-/
def branchCode (context : Context) (mark stop : Nat) (tree : SyntaxTree)
    (body others : Generate Code) : Generate Code := do
  let word ← child tree 0
  if word.value.symbol.hasCategory Language.elseWord then
    let body ← body
    return body ++ [.label mark] ++ (← others)
  else
    let (test, value) ← condition context.constants word.value.symbol.name (← child tree 2)
    -- Each branch but a last one jumps to the end, which is where the label of the last branch stands.
    let body ← body
    return test ++ [.ifFalse value mark] ++ body ++ [.goto stop, .label mark] ++ (← others)

def loopCode (context : Context) (tree : SyntaxTree) (body : Generate Code) : Generate Code := do
  let head ← newLabel
  let (test, value) ← condition context.constants "meanwhile" (← child tree 2)
  -- The label behind the loop is drawn once the condition is known to be fine.
  let exit ← newLabel
  let body ← body
  return [.label head] ++ test ++ [.ifFalse value exit] ++ body ++ [.goto head, .label exit]

mutual

def statement (context : Context) : SyntaxTree → Generate Code
  | .node id label children =>
    if label.symbol = .nonterminal "IF" then
      match branchCount (.node id label children) with
      | .error cause => throw (.fault cause)
      | .ok count => do
        -- All labels of a conditional are drawn before any of its branches draws one.
        let first ← newLabels count
        branchCode context first (first + count - 1) (.node id label children)
          (block context children)
          (nextBranch context (first + 1) (first + count - 1) children)
    else if label.symbol = .nonterminal "LOOP" then
      loopCode context (.node id label children) (block context children)
    else simpleStatement context (.node id label children)
termination_by structural tree => tree

def branch (context : Context) (mark stop : Nat) : SyntaxTree → Generate Code
  | .node id label children =>
    branchCode context mark stop (.node id label children) (block context children)
      (nextBranch context (mark + 1) stop children)
termination_by structural tree => tree

def nextBranch (context : Context) (mark stop : Nat) : List SyntaxTree → Generate Code
  | [] => return []
  | [last] => if isBranch last then branch context mark stop last else return []
  | _ :: second :: rest => nextBranch context mark stop (second :: rest)
termination_by structural trees => trees

def block (context : Context) : List SyntaxTree → Generate Code
  | [] => return []
  | tree :: rest =>
    if tree.value.symbol.hasCategory Language.openBrace then statements context rest
    else block context rest
termination_by structural trees => trees

def statements (context : Context) : List SyntaxTree → Generate Code
  | [] => return []
  | tree :: rest =>
    if tree.value.symbol.hasCategory Language.closeBrace then return []
    else do
      let code ← statement context tree
      return code ++ (← statements context rest)
termination_by structural trees => trees

end

def function (context : Context) (tree : SyntaxTree) : Generate Code := do
  let name ← child tree 2
  match ← lookup? name.value.handle with
  | some (.func entry) =>
    let body ← block { context with function := some entry } tree.children
    return .label ((context.entry? name.value.handle).getD 0) :: body
  | _ => reject (.notAFunction name.value.text)

def functions (context : Context) : List SyntaxTree → Generate Code
  | [] => return []
  | tree :: rest => do
    let code ← function context tree
    return code ++ (← functions context rest)

/-- The statements of the main block: all that stands behind its opening word and is no function. -/
def mainStatements (children : List SyntaxTree) : List SyntaxTree :=
  (children.dropWhile fun tree => !tree.value.symbol.hasCategory Language.startWord).filter
    fun tree => !tree.value.symbol.isTerminal && tree.value.symbol != .nonterminal "FUNC"

def mainBlock (context : Context) : List SyntaxTree → Generate Code
  | [] => return []
  | tree :: rest => do
    let code ← statement context tree
    return code ++ (← mainBlock context rest)

def newEntry (tree : SyntaxTree) : Generate (Handle × Nat) := do
  let name ← child tree 2
  return (name.value.handle, ← newLabel)

def program (constants : ConstantTable) (tree : SyntaxTree) : Generate Code := do
  if tree.value.symbol ≠ .nonterminal Language.programName then
    reject (.notAProgram tree.value.symbol.text)
  else
    let bodies := tree.children.filter fun child => child.value.symbol == .nonterminal "FUNC"
    if bodies.isEmpty then mainBlock { constants } (mainStatements tree.children)
    else
      let mainLabel ← newLabel
      -- Entry labels are drawn before any body, so that functions can call themselves.
      let entries ← bodies.mapM newEntry
      let context : Context := { constants, entries }
      let code ← functions context bodies
      let main ← mainBlock context (mainStatements tree.children)
      return .goto mainLabel :: code ++ .label mainLabel :: main

end Generate

def generate (environment : Environment) (tree : SyntaxTree) :
    Except Failure Code × SymbolTable :=
  let (result, supply) :=
    (Generate.program environment.constants tree).run { symbols := environment.symbols }
  (result, supply.symbols)

end ThreeAddress

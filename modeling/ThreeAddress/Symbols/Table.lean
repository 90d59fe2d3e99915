import ThreeAddress.Failure
import ThreeAddress.Symbols.Scope
import ThreeAddress.ValueType

/-! The table of variables and functions. -/

namespace ThreeAddress

/-- A variable. Temporaries belong to no scope. -/
structure VariableEntry where
  name : Text
  type : ValueType
  scope : Option Nat := none
  temporary : Bool := false
  parameter : Bool := false
deriving DecidableEq, Repr

/-- A function: its name, the type of its result, its parameters in order, and the scope of its body. -/
structure FunctionEntry where
  name : Text
  returns : ValueType
  params : List Handle := []
  body : Option Nat := none
deriving DecidableEq, Repr

/-- What a name of a program stands for. -/
inductive Entry where
  | var (entry : VariableEntry)
  | func (entry : FunctionEntry)
deriving DecidableEq, Repr

namespace Entry

def name : Entry → Text
  | var entry => entry.name
  | func entry => entry.name

def type : Entry → ValueType
  | var entry => entry.type
  | func entry => entry.returns

end Entry

/-- An argument of a call: a value of some type, or a function passed by its name. -/
inductive Argument where
  | value (type : ValueType)
  | function
deriving DecidableEq, Repr

def Argument.text : Argument → Text
  | value type => type.text
  | function => "func"

/-- The entries in the order of their handles, their scopes, and the temporaries made so far. -/
structure SymbolTable where
  entries : List Entry := []
  scopes : ScopeTree
  temporaries : Nat := 0
  returnSlot : Option Handle := none
deriving DecidableEq, Repr

namespace SymbolTable

def globalScope : Text := "globals"

def empty : SymbolTable :=
  { scopes := ScopeTree.empty.push globalScope }

def size (table : SymbolTable) : Nat :=
  table.entries.length

def here (table : SymbolTable) : Nat :=
  table.scopes.path.headD 0

def scopeName (table : SymbolTable) : Text :=
  table.scopes.nameOf table.here

def lookup? (table : SymbolTable) : Handle → Option Entry
  | .ofNat index => table.entries[index]?
  | .negSucc _ => none

def function? (table : SymbolTable) (handle : Handle) : Option FunctionEntry :=
  match table.lookup? handle with
  | some (.func entry) => some entry
  | _ => none

def push (table : SymbolTable) (name : Text) : SymbolTable :=
  { table with scopes := table.scopes.push name }

def pop (table : SymbolTable) : Except Fault (Nat × SymbolTable) := do
  let (id, scopes) ← table.scopes.pop
  return (id, { table with scopes })

def append (table : SymbolTable) (entry : Entry) : Handle × SymbolTable :=
  (table.size, { table with entries := table.entries ++ [entry] })

/-- Adds an entry under its name, which must be new in the scope. -/
def declare (table : SymbolTable) (scope : Nat) (entry : Entry) :
    Except Diagnostic (Handle × SymbolTable) :=
  -- Only the scope itself counts, so a name may hide one further out.
  if (table.scopes.lookup? scope entry.name).isSome then
    .error (.duplicateDeclaration entry.name (table.scopes.nameOf scope))
  else
    let (handle, appended) := table.append entry
    .ok (handle, { appended with scopes := table.scopes.define scope entry.name handle })

def declareVariable (table : SymbolTable) (name : Text) (type : ValueType) :
    Except Diagnostic (Handle × SymbolTable) :=
  table.declare table.here (.var { name, type, scope := some table.here })

def declareFunction (table : SymbolTable) (name : Text) (returns : ValueType) :
    Except Diagnostic (Handle × SymbolTable) :=
  table.declare 0 (.func { name, returns })

def modifyFunction (table : SymbolTable) (handle : Handle)
    (change : FunctionEntry → FunctionEntry) : SymbolTable :=
  { table with
    entries := table.entries.modify handle.toNat fun entry =>
      match entry with
      | .func entry => .func (change entry)
      | .var _ => entry }

def declareParameter (table : SymbolTable) (name : Text) (type : ValueType) :
    Except Diagnostic (Handle × SymbolTable) :=
  table.declare table.here (.var { name, type, scope := some table.here, parameter := true })

def addParameter (table : SymbolTable) (function : Handle) (name : Text) (type : ValueType) :
    Except Diagnostic (Handle × SymbolTable) := do
  -- A parameter that cannot be declared is not appended either.
  let (handle, declared) ← table.declareParameter name type
  return (handle, declared.modifyFunction function fun entry =>
    { entry with params := entry.params ++ [handle] })

def openBody (table : SymbolTable) (function : Handle) (name : Text) : SymbolTable :=
  let opened := table.push name
  opened.modifyFunction function fun entry => { entry with body := some opened.here }

def resolve (table : SymbolTable) (name : Text) : Except Diagnostic Handle :=
  match table.scopes.resolve? table.here name with
  | some (handle, _) => .ok handle
  | none => .error (.undeclaredSymbol name table.scopeName)

/-- Makes a new temporary. Temporaries are numbered, and no scope holds their names. -/
def newTemporary (table : SymbolTable) (type : ValueType) : Handle × SymbolTable :=
  -- No scope binds the name, so a program cannot refer to a temporary.
  let (handle, appended) := table.append
    (.var { name := "t" ++ Text.ofNat table.temporaries, type, temporary := true })
  (handle, { appended with temporaries := table.temporaries + 1 })

/-- The variable for the results of all functions, made when it is first asked for. -/
def getReturnSlot (table : SymbolTable) : Handle × SymbolTable :=
  match table.returnSlot with
  | some handle => (handle, table)
  | none =>
    let (handle, appended) := table.append
      (.var { name := "0return", type := .untyped, temporary := true })
    (handle, { appended with returnSlot := some handle })

def typeOf (table : SymbolTable) (handle : Handle) : ValueType :=
  (table.lookup? handle).elim .untyped Entry.type

def argumentProblem? : List Argument → List ValueType → Option ParameterProblem
  | .function :: _, _ :: _ => some .functionPassed
  | .value type :: args, param :: params =>
    if type = param then argumentProblem? args params else some .wrongType
  | _, _ => none

/-- Checks the arguments of a call: their number, and then one after the other. -/
def checkCall (table : SymbolTable) (function : FunctionEntry) (args : List Argument) :
    Except Diagnostic Unit :=
  let params := function.params.map table.typeOf
  -- The number is checked first, so that every argument has a parameter to be compared with.
  let problem := if args.length = params.length then argumentProblem? args params
    else some .wrongCount
  match problem with
  | none => .ok ()
  | some problem =>
    .error (.parameterMismatch function.name problem (params.map ValueType.text)
      (args.map Argument.text))

def entryText (table : SymbolTable) : Entry → Text
  | .var entry =>
    let front : Text := "<var " ++ entry.name ++ ":" ++ entry.type.text
    match entry.scope with
    | some scope => front ++ " in " ++ table.scopes.nameOf scope ++ ">"
    | none => front ++ ">"
  | .func entry =>
    "<func " ++ entry.name ++ "(" ++ Text.ofNat entry.params.length ++ "):" ++
      entry.returns.text ++ ">"

end SymbolTable

end ThreeAddress

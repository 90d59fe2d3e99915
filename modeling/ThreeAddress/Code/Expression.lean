import ThreeAddress.Code.Instruction
import ThreeAddress.Language.Category
import ThreeAddress.Syntax.Tree

/-!
Code for expressions.

An expression node has operands and operators in turn, which are joined from left to right.
Every operation stores its value in a new temporary.
-/

namespace ThreeAddress

/-- What code generation draws from: the symbol table for temporaries, and the next label. -/
structure Supply where
  symbols : SymbolTable
  nextLabel : Nat := 0
deriving Repr

/-- A step of code generation. A failure keeps the temporaries made before it. -/
abbrev Generate (α : Type) := ExceptT Failure (StateM Supply) α

namespace Generate

def report {α : Type} (error : Diagnostic) : Generate α :=
  throw (.diagnostic error)

def reject {α : Type} (problem : TreeProblem) : Generate α :=
  throw (.tree problem)

def newLabel : Generate Nat :=
  modifyGet fun supply => (supply.nextLabel, { supply with nextLabel := supply.nextLabel + 1 })

def newTemporary (type : ValueType) : Generate Handle :=
  modifyGet fun supply =>
    let (handle, symbols) := supply.symbols.newTemporary type
    (handle, { supply with symbols })

def returnSlot : Generate Handle :=
  modifyGet fun supply =>
    let (handle, symbols) := supply.symbols.getReturnSlot
    (handle, { supply with symbols })

def lookup? (handle : Handle) : Generate (Option Entry) := do
  return (← get).symbols.lookup? handle

/-- A child of a node, which must be there. -/
def child (tree : SyntaxTree) (index : Nat) : Generate SyntaxTree :=
  match tree.children[index]? with
  | some child => return child
  | none => throw (.fault (.noSuchChild tree.id index))

end Generate

def BinaryOperation.ofCategory? (category : Category) : Option BinaryOperation :=
  if Language.isOperator category then BinaryOperation.all[(category - 28).toNat]? else none

def BinaryOperation.resultType (operation : BinaryOperation) (left right : ValueType) :
    Except Diagnostic ValueType :=
  let context : Text := "operation " ++ operation.text
  -- There are no conversions, so both sides must agree before the operation is looked at.
  if left ≠ right then .error (.semanticType context left.text right.text)
  else if operation.isLogical then
    if left = .boolean then .ok .boolean
    else .error (.semanticType context ValueType.boolean.text left.text)
  else if operation.isRelational then .ok .boolean
  else if left = .boolean then .error (.semanticType context "number" left.text)
  else .ok left

/-- A value with its type. -/
structure Typed where
  value : Value
  type : ValueType
deriving DecidableEq, Repr

/-- What is known of an expression part of the way through its children. -/
inductive Partial where
  | start
  | value (left : Typed)
  /-- The value so far, and an operator that waits for its right operand. -/
  | pending (left : Typed) (operation : BinaryOperation)
deriving DecidableEq, Repr

namespace Generate

def leaf (constants : ConstantTable) (label : Label) : Generate Typed :=
  match label.symbol, label.token with
  | .terminal _ category, some token =>
    if category = Language.identifier then do
      match ← lookup? token.handle with
      | some (.var entry) => return ⟨.symbol token.handle, entry.type⟩
      | some (.func entry) =>
        report (.semanticType "expression" "variable" ("function " ++ entry.name))
      | none => reject (.unresolvedOperand label.text)
    else if category = Language.constant || category = Language.trueWord ||
        category = Language.falseWord then
      match constants.lookup? token.handle with
      | some constant => return ⟨.constant token.handle, constant.type⟩
      | none => reject (.unresolvedOperand label.text)
    else reject (.notAnOperand label.text)
  | _, _ => reject (.notAnOperand label.text)

def combine (operation : BinaryOperation) (left right : Typed) : Generate (Code × Typed) :=
  match operation.resultType left.type right.type with
  | .error error => report error
  | .ok type => do
    -- Every operation has a temporary of its own, so no value is overwritten before it is used.
    let handle ← newTemporary type
    return ([.binary operation handle left.value right.value], ⟨.symbol handle, type⟩)

def takeOperator (soFar : Partial) (operation : BinaryOperation) (symbol : Symbol) :
    Generate Partial :=
  match soFar with
  | .value left => return .pending left operation
  | _ => reject (.misplacedOperator symbol.text)

def takeOperand (soFar : Partial) (right : Typed) (label : Label) : Generate (Code × Partial) :=
  match soFar with
  | .start => return ([], .value right)
  | .value _ => reject (.missingOperator label.text)
  | .pending left operation => do
    let (code, result) ← combine operation left right
    return (code, .value result)

mutual

def expression (constants : ConstantTable) : SyntaxTree → Generate (Code × Typed)
  | .node _ label [] => do return ([], ← leaf constants label)
  | .node _ label (first :: rest) => do
    match ← operands constants .start (first :: rest) with
    | (code, .value result) => return (code, result)
    | _ => reject (.incompleteExpression label.text)
termination_by structural tree => tree

def operands (constants : ConstantTable) (soFar : Partial) :
    List SyntaxTree → Generate (Code × Partial)
  | [] => return ([], soFar)
  | tree :: rest => do
    -- Operators are known by their category, and everything else must be an operand.
    match tree.value.symbol.category?.bind BinaryOperation.ofCategory? with
    | some operation => do
      let soFar ← takeOperator soFar operation tree.value.symbol
      operands constants soFar rest
    | none => do
      -- The code of an operand stands before that of the operation which takes it.
      let (code, right) ← expression constants tree
      let (joined, soFar) ← takeOperand soFar right tree.value
      let (others, soFar) ← operands constants soFar rest
      return (code ++ joined ++ others, soFar)
termination_by structural trees => trees

end

def condition (constants : ConstantTable) (what : Text) (tree : SyntaxTree) :
    Generate (Code × Value) := do
  let (code, result) ← expression constants tree
  if result.type = .boolean then return (code, result.value)
  else report (.semanticType ("condition of " ++ what) ValueType.boolean.text result.type.text)

end Generate

end ThreeAddress

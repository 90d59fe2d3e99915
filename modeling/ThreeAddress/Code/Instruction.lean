import ThreeAddress.Code.Quadruple

/-! The instructions of a compiled program. -/

namespace ThreeAddress

/-- What an instruction can read: a variable or a constant. -/
inductive Value where
  | symbol (handle : Handle)
  | constant (handle : Handle)
deriving DecidableEq, Repr

def Value.operand : Value → Operand
  | symbol handle => .symbol handle
  | constant handle => .constant handle

/-- An instruction. -/
inductive Instruction where
  | binary (operation : BinaryOperation) (result : Handle) (left right : Value)
  | move (target : Handle) (source : Value)
  | goto (place : Nat)
  | ifFalse (condition : Value) (place : Nat)
  /-- Marks a place in the code, to which the other instructions jump. -/
  | label (place : Nat)
  /-- Jumps, and comes back behind this place at the next return. -/
  | call (place : Nat)
  /-- Goes back behind the last call. -/
  | ret
deriving DecidableEq, Repr

abbrev Code := List Instruction

namespace Instruction

def quadruple : Instruction → Quadruple
  | binary operation result left right =>
    { operation := .binary operation, result := .symbol result
      first := left.operand, second := right.operand }
  | move target source =>
    { operation := .move, result := .symbol target, first := source.operand }
  | goto place => { operation := .goto, result := .label place }
  | ifFalse condition place =>
    { operation := .ifFalse, result := .label place, first := condition.operand }
  | label place => { operation := .label, result := .label place }
  | call place => { operation := .call, result := .label place }
  | ret => { operation := .ret }

end Instruction

namespace Code

def listing (environment : Environment) (code : Code) : Text :=
  Quadruple.listing (Operand.display environment) (code.map Instruction.quadruple)

def rawListing (code : Code) : Text :=
  Quadruple.listing Operand.text (code.map Instruction.quadruple)

end Code

end ThreeAddress

import ThreeAddress.Code.Operation
import ThreeAddress.Symbols.Environment
import ThreeAddress.Text.Blank

/-! Quadruples: an operation, a result and two operands, any of which may be missing. -/

namespace ThreeAddress

/-- An operand or a result. -/
inductive Operand where
  | absent
  | symbol (handle : Handle)
  | constant (handle : Handle)
  | label (number : Int)
  /-- Present, but nothing that could be named. -/
  | undefined
deriving DecidableEq, Repr

namespace Operand

/-- The operand of a given kind that refers to number zero. -/
def ofKind (kind : Int8) : Operand :=
  match kind.toInt with
  | 0 => absent
  | 1 => symbol 0
  | 2 => constant 0
  | 3 => label 0
  | _ => undefined

def text : Operand → Text
  | absent => []
  | symbol handle => "#" ++ Text.ofInt handle
  | constant handle => "$" ++ Text.ofInt handle
  | label number => "L" ++ Text.ofInt number
  | undefined => []

/-- An operand by its name, where it has one. -/
def display (environment : Environment) (operand : Operand) : Text :=
  match operand with
  | symbol handle => (environment.symbols.lookup? handle).elim operand.text Entry.name
  | constant handle => (environment.constants.lookup? handle).elim operand.text Constant.display
  | _ => operand.text

end Operand

/-- An instruction in its general form. -/
structure Quadruple where
  operation : Operation
  result : Operand := .absent
  first : Operand := .absent
  second : Operand := .absent
deriving DecidableEq, Repr

namespace Quadruple

def isComplete (quadruple : Quadruple) : Bool :=
  quadruple.result != .absent

def format (name : Operand → Text) (quadruple : Quadruple) : Text :=
  let result := name quadruple.result
  let first := name quadruple.first
  let second := name quadruple.second
  match quadruple.operation with
  | .move => result ++ " := " ++ first
  | .goto => "goto " ++ result
  | .ifFalse => "iffalse " ++ first ++ " goto " ++ result
  | .label => result ++ ":"
  | .call => "call " ++ result
  | .ret => "return"
  | .nop => "nop"
  | operation =>
    let value : Text := first ++ " " ++ operation.text ++ " " ++ second
    if quadruple.isComplete then result ++ " := " ++ value else value.trim

/-- A quadruple in its own line. Labels stand out to the left. -/
def line (name : Operand → Text) (quadruple : Quadruple) : Text :=
  let indent : Text := if quadruple.operation = .label then [] else "    "
  indent ++ quadruple.format name ++ "\n"

def listing (name : Operand → Text) (code : List Quadruple) : Text :=
  code.flatMap fun quadruple => quadruple.line name

end Quadruple

end ThreeAddress

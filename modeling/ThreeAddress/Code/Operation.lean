import ThreeAddress.ValueType

/-! The operations of three-address code. -/

namespace ThreeAddress

/-- An operation on two operands. -/
inductive BinaryOperation where
  | add
  | sub
  | mul
  | div
  | less
  | greater
  | lessEq
  | greaterEq
  | equal
  | notEqual
  | and
  | or
deriving DecidableEq, Repr

namespace BinaryOperation

def all : List BinaryOperation :=
  [add, sub, mul, div, less, greater, lessEq, greaterEq, equal, notEqual, and, or]

def text : BinaryOperation → Text
  | add => "+"
  | sub => "-"
  | mul => "*"
  | div => "/"
  | less => "<"
  | greater => ">"
  | lessEq => "<="
  | greaterEq => ">="
  | equal => "=="
  | notEqual => "!="
  | and => "&&"
  | or => "||"

def isRelational : BinaryOperation → Bool
  | less | greater | lessEq | greaterEq | equal | notEqual => true
  | _ => false

/-- Whether an operation joins truth values. -/
def isLogical : BinaryOperation → Bool
  | and | or => true
  | _ => false

end BinaryOperation

/-- What an instruction does. -/
inductive Operation where
  | nop
  | binary (operation : BinaryOperation)
  | move
  | goto
  | ifFalse
  | label
  | call
  | ret
  | undefined
deriving DecidableEq, Repr

namespace Operation

def ofNumber (number : Int8) : Operation :=
  match number.toInt with
  | 0 => nop
  | 13 => move
  | 14 => goto
  | 15 => ifFalse
  | 16 => label
  | 17 => call
  | 18 => ret
  | .negSucc _ => undefined
  | .ofNat index => (BinaryOperation.all[index - 1]?).elim undefined binary

def text : Operation → Text
  | nop => "nop"
  | binary operation => operation.text
  | move => ":="
  | goto => "goto"
  | ifFalse => "iffalse"
  | label => "label"
  | call => "call"
  | ret => "return"
  | undefined => "?"

def isBinary : Operation → Bool
  | binary _ => true
  | _ => false

def isRelational : Operation → Bool
  | binary operation => operation.isRelational
  | _ => false

/-- Whether an operation joins truth values. -/
def isLogical : Operation → Bool
  | binary operation => operation.isLogical
  | _ => false

end Operation

end ThreeAddress

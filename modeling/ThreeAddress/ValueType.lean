import ThreeAddress.Text.Basic

/-! The types of values. -/

namespace ThreeAddress

/-- The type of a variable, a constant or the result of a function. -/
inductive ValueType where
  | untyped
  | int
  | float
  | char
  | boolean
deriving DecidableEq, Repr, Inhabited

namespace ValueType

def text : ValueType → Text
  | untyped => "untyped"
  | int => "int"
  | float => "float"
  | char => "char"
  | boolean => "boolean"

/-- The type with a given name. No name stands for the missing type. -/
def ofName? (name : Text) : Option ValueType :=
  [int, float, char, boolean].find? fun type => type.text == name

def number : ValueType → Nat
  | untyped => 0
  | int => 1
  | float => 2
  | char => 3
  | boolean => 4

/-- The type with a given number. Numbers without a type stand for the missing type. -/
def ofNumber (number : Int8) : ValueType :=
  match number.toInt with
  | 1 => int
  | 2 => float
  | 3 => char
  | 4 => boolean
  | _ => untyped

end ValueType

end ThreeAddress

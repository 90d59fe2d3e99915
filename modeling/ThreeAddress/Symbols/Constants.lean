import ThreeAddress.Numeral.Binary64
import ThreeAddress.Text.Folding
import ThreeAddress.Token
import ThreeAddress.ValueType

/-! The table of constants. -/

namespace ThreeAddress

/-- The value of a constant. Floats are held as their bits, and characters as code points. -/
inductive ConstantValue where
  | int (value : Int)
  | float (bits : UInt64)
  | char (code : Nat)
  | boolean (value : Bool)
deriving DecidableEq, Repr

def ConstantValue.type : ConstantValue → ValueType
  | int _ => .int
  | float _ => .float
  | char _ => .char
  | boolean _ => .boolean

/-- A constant: its text and its value. -/
structure Constant where
  text : Text
  value : ConstantValue
deriving DecidableEq, Repr

namespace Constant

def type (constant : Constant) : ValueType :=
  constant.value.type

def display (constant : Constant) : Text :=
  match constant.value with
  | .char _ => "'" ++ constant.text ++ "'"
  | _ => constant.text

def numeralCause (reader : Text) (text : Text) (problem : Numeral.Problem) : Text :=
  reader ++ ": parsing " ++ text.quoted ++ ": " ++ problem.text

def ofCharacter (text : Text) : Except Diagnostic Constant :=
  match text.glyphs with
  | [glyph] => .ok ⟨text, .char glyph.code⟩
  | _ =>
    .error (.malformedConstant text ValueType.char.text
      (some "a char cannot be longer than one character"))

/-- The constant of a word: a truth value up to case, a float if it holds a point, and else an integer. -/
def ofWord (text : Text) : Except Diagnostic Constant :=
  -- Truth values are entered in one spelling, and numbers as they are written.
  if text.equalsFolded "true" then .ok ⟨"true", .boolean true⟩
  else if text.equalsFolded "false" then .ok ⟨"false", .boolean false⟩
  else if text.contains 0x2E then
    match Numeral.binary64 text with
    | .ok bits => .ok ⟨text, .float bits⟩
    | .error problem =>
      .error (.malformedConstant text ValueType.float.text
        (some (numeralCause "strconv.ParseFloat" text problem)))
  else
    match Numeral.integer text with
    | .ok value => .ok ⟨text, .int value⟩
    | .error problem =>
      .error (.malformedConstant text ValueType.int.text
        (some (numeralCause "strconv.ParseInt" text problem)))

def ofLiteral (text : Text) (isCharacter : Bool) : Except Diagnostic Constant :=
  if isCharacter then ofCharacter text else ofWord text

/-- What a constant is entered under: the number of its type, a colon, and its text. -/
def key (constant : Constant) : Text :=
  Text.ofNat constant.type.number ++ ":" ++ constant.text

end Constant

/-- The constants in the order of their handles, and the handles by key. -/
structure ConstantTable where
  constants : List Constant := []
  index : List (Text × Handle) := []
  indexed : index = constants.zipIdx.map fun entry => (entry.1.key, Int.ofNat entry.2) := by rfl
deriving DecidableEq, Repr

namespace ConstantTable

def empty : ConstantTable := {}

def size (table : ConstantTable) : Nat :=
  table.constants.length

def lookup? (table : ConstantTable) : Handle → Option Constant
  | .ofNat index => table.constants[index]?
  | .negSucc _ => none

/-- Enters a constant, unless it has an entry already. -/
def enter (table : ConstantTable) (constant : Constant) : Handle × ConstantTable :=
  -- Two spellings of one number are two constants.
  match table.index.lookup constant.key with
  | some handle => (handle, table)
  | none =>
    (table.size,
      { constants := table.constants ++ [constant]
        index := table.index ++ [(constant.key, (table.size : Int))]
        indexed := by simp [table.indexed, size, List.zipIdx_append] })

def intern (table : ConstantTable) (text : Text) (isCharacter : Bool) :
    Except Diagnostic (Handle × ConstantTable) := do
  return table.enter (← Constant.ofLiteral text isCharacter)

end ConstantTable

end ThreeAddress

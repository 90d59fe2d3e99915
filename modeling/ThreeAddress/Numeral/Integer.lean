import ThreeAddress.Text.Basic

/-! Signed decimal numerals of 64 bits. -/

namespace ThreeAddress.Numeral

/-- Why a text is no number of its kind. -/
inductive Problem where
  | malformed
  | outOfRange
deriving DecidableEq, Repr

def Problem.text : Problem → Text
  | malformed => "invalid syntax"
  | outOfRange => "value out of range"

def isDigit (byte : UInt8) : Bool :=
  0x30 ≤ byte && byte ≤ 0x39

def digitValue (byte : UInt8) : Nat :=
  byte.toNat - 0x30

def wordLimit : Nat := 0x10000000000000000

/-- The number of values of a word that are not negative, 2^63. -/
def signLimit : Nat := 0x8000000000000000

/--
The number that digits spell behind those already read.

A number that does not fit into 64 bits is out of range whatever follows it.
-/
def digits : Nat → Text → Except Problem Nat
  | value, [] => .ok value
  | value, byte :: rest =>
    if !isDigit byte then .error .malformed
    else
      let next := 10 * value + digitValue byte
      if next < wordLimit then digits next rest else .error .outOfRange

/-- The number that a non-empty run of digits spells. -/
def unsigned (text : Text) : Except Problem Nat :=
  if text.isEmpty then .error .malformed else digits 0 text

/-- A sign in front of a text: whether it is negative, and the rest. -/
def sign : Text → Bool × Text
  | 0x2B :: rest => (false, rest)
  | 0x2D :: rest => (true, rest)
  | text => (false, text)

/-- The number that a decimal numeral with an optional sign spells, from -2^63 up to 2^63 - 1. -/
def integer (text : Text) : Except Problem Int := do
  let (negative, magnitude) := sign text
  let value ← unsigned magnitude
  if negative then
    if value ≤ signLimit then return -(value : Int) else .error .outOfRange
  else
    if value < signLimit then return (value : Int) else .error .outOfRange

end ThreeAddress.Numeral

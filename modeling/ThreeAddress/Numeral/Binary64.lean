import ThreeAddress.Numeral.Integer

/-!
Numerals of binary floating-point numbers, and the nearest number of 64 bits.

A numeral is decimal, or hexadecimal with a binary exponent.
-/

namespace ThreeAddress.Numeral

/-- The bits of infinity, and so the first that stand for no finite number. -/
def infinityBits : Nat := 0x7FF0000000000000

/-- A quotient rounded to the nearest integer, halves to the even one. -/
def roundedQuotient (num den : Nat) : Nat :=
  let floor := num / den
  let twice := 2 * (num % den)
  if den < twice || (twice == den && floor % 2 == 1) then floor + 1 else floor

/-- A quotient times a power of two. -/
private def scaled (num den : Nat) (exponent : Int) : Nat × Nat :=
  match exponent with
  | .ofNat up => (num <<< up, den)
  | .negSucc down => (num, den <<< (down + 1))

/-- The exponent of the last place of a quotient: 53 binary digits stand before it, unless the smallest is reached. -/
private def lastPlace (num den : Nat) : Int :=
  -- The lengths in bits give the exponent up to one, and a comparison settles which.
  let guess : Int := (num.log2 : Int) - (den.log2 : Int) - 52
  let (num', den') := scaled num den (-guess)
  let exact := if num' < den' <<< 52 then guess - 1 else guess
  max exact (-1074)

/-- The bits of the number nearest to a quotient. The bits are not those of a finite number where it is too large. -/
def nearestBits (num den : Nat) : Nat :=
  if num = 0 then 0
  else
    let place := lastPlace num den
    let (num', den') := scaled num den (-place)
    -- The leading digit of a full significand counts as one more unit of the exponent, and so does a carry.
    ((place + 1074).toNat <<< 52) + roundedQuotient num' den'

/-- The digits of a numeral, as one number and how many of them stand behind the point. -/
structure Digits where
  value : Nat := 0
  behindPoint : Nat := 0
  seenPoint : Bool := false
  seenDigit : Bool := false
deriving DecidableEq, Repr

private def hexValue? (byte : UInt8) : Option Nat :=
  if isDigit byte then some (digitValue byte)
  else if 0x61 ≤ byte && byte ≤ 0x66 then some (byte.toNat - 0x57)
  else if 0x41 ≤ byte && byte ≤ 0x46 then some (byte.toNat - 0x37)
  else none

private def decimalValue? (byte : UInt8) : Option Nat :=
  if isDigit byte then some (digitValue byte) else none

/-- Reads digits with at most one point. Underscores are passed over. -/
private def readDigits (base : Nat) (value? : UInt8 → Option Nat) :
    Digits → Text → Digits × Text
  | digits, [] => (digits, [])
  | digits, byte :: rest =>
    if byte = 0x5F then readDigits base value? digits rest
    else if byte = 0x2E then
      if digits.seenPoint then (digits, byte :: rest)
      else readDigits base value? { digits with seenPoint := true } rest
    else
      match value? byte with
      | none => (digits, byte :: rest)
      | some digit =>
        readDigits base value?
          { digits with
            value := base * digits.value + digit
            behindPoint := digits.behindPoint + (if digits.seenPoint then 1 else 0)
            seenDigit := true } rest

/-- The value of an exponent's digits up to the end of the text. It does not grow beyond five digits. -/
private def exponentDigits? : Nat → Text → Option Nat
  | value, [] => some value
  | value, byte :: rest =>
    if byte = 0x5F then exponentDigits? value rest
    else if isDigit byte then
      exponentDigits? (if value < 10000 then 10 * value + digitValue byte else value) rest
    else none

private def exponent? (text : Text) : Option Int :=
  let (negative, magnitude) := sign text
  match magnitude with
  | [] => none
  | first :: _ =>
    if isDigit first then
      (exponentDigits? 0 magnitude).map fun value => if negative then -(value : Int) else value
    else none

/-- What stood before a character, for the rule on underscores. -/
private inductive Before where
  | start
  | digit
  | underscore
  | other
deriving DecidableEq

private def separates (isDigitOf : UInt8 → Bool) : Before → Text → Bool
  | before, [] => before != .underscore
  | before, byte :: rest =>
    if isDigitOf byte then separates isDigitOf .digit rest
    else if byte = 0x5F then before == .digit && separates isDigitOf .underscore rest
    else before != .underscore && separates isDigitOf .other rest

/-- Whether a byte is the given letter, in lower or upper case. -/
private def isLetterOf (letter : Char) (byte : UInt8) : Bool :=
  byte ||| 0x20 == letter.toUInt8

/-- Whether the underscores of a numeral separate its digits. A mark of the base counts as a digit. -/
private def underscoresFit (text : Text) : Bool :=
  match (sign text).2 with
  | 0x30 :: mark :: rest =>
    if isLetterOf 'x' mark then separates (fun byte => (hexValue? byte).isSome) .digit rest
    else if isLetterOf 'b' mark || isLetterOf 'o' mark then separates isDigit .digit rest
    else separates isDigit .start (0x30 :: mark :: rest)
  | rest => separates isDigit .start rest

private def quotient? (magnitude : Text) : Option (Nat × Nat) :=
  let hexadecimal : Option Text := match magnitude with
    | 0x30 :: mark :: rest => if isLetterOf 'x' mark && !rest.isEmpty then some rest else none
    | _ => none
  match hexadecimal with
  | some body =>
    match readDigits 16 hexValue? {} body with
    | (digits, mark :: rest) =>
      if digits.seenDigit && isLetterOf 'p' mark then
        (exponent? rest).map fun exponent =>
          scaled digits.value 1 (exponent - 4 * (digits.behindPoint : Int))
      else none
    | (_, []) => none
  | none =>
    match readDigits 10 decimalValue? {} magnitude with
    | (digits, tail) =>
      if !digits.seenDigit then none
      else
        let exponent := match tail with
          | [] => some 0
          | mark :: rest => if isLetterOf 'e' mark then exponent? rest else none
        exponent.map fun exponent =>
          match exponent - (digits.behindPoint : Int) with
          | .ofNat up => (digits.value * Nat.pow 10 up, 1)
          | .negSucc down => (digits.value, Nat.pow 10 (down + 1))

/-- The bits of the floating-point number nearest to the value of a numeral. -/
def binary64 (text : Text) : Except Problem UInt64 :=
  let (negative, magnitude) := sign text
  match quotient? magnitude with
  | none => .error .malformed
  | some (num, den) =>
    if !underscoresFit text then .error .malformed
    else
      let bits := nearestBits num den
      if infinityBits ≤ bits then .error .outOfRange
      else .ok (bits.toUInt64 ||| (if negative then 0x8000000000000000 else 0))

end ThreeAddress.Numeral

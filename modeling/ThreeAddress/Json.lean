import ThreeAddress.Text.Glyph

/-! JSON values, and reading one from the front of a text. -/

namespace ThreeAddress

/-- A JSON value. Numbers are checked, but their value is of no interest here. -/
inductive Json where
  | null
  | bool (value : Bool)
  | number
  | string (text : Text)
  | array (items : List Json)
  | object (members : List (Text × Json))
deriving Repr

namespace Json

/-- How deep arrays and objects may nest. -/
def depthLimit : Nat := 10000

def skipBlanks (text : Text) : Text :=
  text.dropWhile fun byte => byte == 0x20 || byte == 0x09 || byte == 0x0A || byte == 0x0D

private def isDigit (byte : UInt8) : Bool :=
  0x30 ≤ byte && byte ≤ 0x39

/-- Reads at least one digit. -/
private def skipDigits (text : Text) : Option Text :=
  match text with
  | byte :: rest => if isDigit byte then some (rest.dropWhile isDigit) else none
  | [] => none

/-- Reads the whole part of a number, which has no needless zero in front. -/
private def skipWhole : Text → Option Text
  | 0x30 :: rest => some rest
  | text => skipDigits text

/-- Reads the fraction of a number, where there is one. -/
private def skipFraction : Text → Option Text
  | 0x2E :: rest => skipDigits rest
  | text => some text

/-- Reads the exponent of a number, where there is one. -/
private def skipExponent : Text → Option Text
  | mark :: rest =>
    if mark == 0x65 || mark == 0x45 then
      match rest with
      | sign :: digits => skipDigits (if sign == 0x2B || sign == 0x2D then digits else rest)
      | [] => none
    else some (mark :: rest)
  | [] => some []

private def skipNumber (text : Text) : Option Text := do
  let unsigned := match text with
    | 0x2D :: rest => rest
    | _ => text
  skipExponent (← skipFraction (← skipWhole unsigned))

private def hexValue? (byte : UInt8) : Option Nat :=
  if isDigit byte then some (byte.toNat - 0x30)
  else if 0x61 ≤ byte && byte ≤ 0x66 then some (byte.toNat - 0x57)
  else if 0x41 ≤ byte && byte ≤ 0x46 then some (byte.toNat - 0x37)
  else none

private def hexQuad? (a b c d : UInt8) : Option Nat := do
  return (((← hexValue? a) * 16 + (← hexValue? b)) * 16 + (← hexValue? c)) * 16 + (← hexValue? d)

private def escaped? (letter : UInt8) : Option UInt8 :=
  match letter with
  | 0x22 => some 0x22
  | 0x5C => some 0x5C
  | 0x2F => some 0x2F
  | 0x62 => some 0x08
  | 0x66 => some 0x0C
  | 0x6E => some 0x0A
  | 0x72 => some 0x0D
  | 0x74 => some 0x09
  | _ => none

/-- Whether a unit is the first half of a pair that encodes one character. -/
private def isLead (unit : Nat) : Bool :=
  0xD800 ≤ unit && unit < 0xDC00

/-- Whether a unit is the second half of a pair that encodes one character. -/
private def isTrail (unit : Nat) : Bool :=
  0xDC00 ≤ unit && unit < 0xE000

/-- The character of one unit. Halves of a pair do not stand for a character. -/
private def unitText (unit : Nat) : Text :=
  String.utf8EncodeChar (Char.ofNat (if isLead unit || isTrail unit then 0xFFFD else unit))

private def pairText (lead trail : Nat) : Text :=
  String.utf8EncodeChar (Char.ofNat (0x10000 + (lead - 0xD800) * 0x400 + (trail - 0xDC00)))

/-- What a first half of a pair turns into when no second half comes. -/
private def lonely (lead : Option Nat) : Text :=
  (lead.map unitText).getD []

/-- Reads a string behind its opening quote, where a first half of a pair may just have been read. -/
private def readString : Option Nat → Text → Option (Text × Text)
  | _, [] => none
  | lead, 0x22 :: rest => some (lonely lead, rest)
  | lead, 0x5C :: 0x75 :: a :: b :: c :: d :: rest => do
    let unit ← hexQuad? a b c d
    if isLead unit then
      let (tail, behind) ← readString (some unit) rest
      return (lonely lead ++ tail, behind)
    else
      let front := match lead with
        | some half => if isTrail unit then pairText half unit else unitText half ++ unitText unit
        | none => unitText unit
      let (tail, behind) ← readString none rest
      return (front ++ tail, behind)
  | lead, 0x5C :: letter :: rest => do
    let byte ← escaped? letter
    let (tail, behind) ← readString none rest
    return (lonely lead ++ byte :: tail, behind)
  | lead, byte :: rest => do
    if byte < 0x20 || byte == 0x5C then none
    else
      let (tail, behind) ← readString none rest
      return (lonely lead ++ byte :: tail, behind)

private def skipWord (word : Text) (text : Text) : Option Text :=
  if text.startsWith word then some (text.drop word.length) else none

mutual

/-- Reads a value at the given depth of nesting, in at most the given number of steps. -/
private def readValue : Nat → Nat → Text → Option (Json × Text)
  | 0, _, _ => none
  | steps + 1, depth, text =>
    match skipBlanks text with
    | [] => none
    | 0x5B :: rest =>
      -- Nesting is limited, and a text that nests deeper is not read at all.
      if depth ≥ depthLimit then none
      else match skipBlanks rest with
        | 0x5D :: behind => some (array [], behind)
        | items => do
          let (values, behind) ← readItems steps (depth + 1) items
          return (array values, behind)
    | 0x7B :: rest =>
      if depth ≥ depthLimit then none
      else match skipBlanks rest with
        | 0x7D :: behind => some (object [], behind)
        | members => do
          let (values, behind) ← readMembers steps (depth + 1) members
          return (object values, behind)
    | 0x22 :: rest => do
      let (content, behind) ← readString none rest
      return (string content, behind)
    | 0x74 :: rest => do return (bool true, ← skipWord "rue" rest)
    | 0x66 :: rest => do return (bool false, ← skipWord "alse" rest)
    | 0x6E :: rest => do return (null, ← skipWord "ull" rest)
    | other => do return (number, ← skipNumber other)

private def readItems : Nat → Nat → Text → Option (List Json × Text)
  | 0, _, _ => none
  | steps + 1, depth, text => do
    let (value, behind) ← readValue steps depth text
    match skipBlanks behind with
    | 0x2C :: rest => do
      let (values, behind) ← readItems steps depth rest
      return (value :: values, behind)
    | 0x5D :: rest => return ([value], rest)
    | _ => none

private def readMembers : Nat → Nat → Text → Option (List (Text × Json) × Text)
  | 0, _, _ => none
  | steps + 1, depth, text =>
    match skipBlanks text with
    | 0x22 :: rest => do
      let (key, behind) ← readString none rest
      match skipBlanks behind with
      | 0x3A :: rest => do
        let (value, behind) ← readValue steps depth rest
        match skipBlanks behind with
        | 0x2C :: rest => do
          let (members, behind) ← readMembers steps depth rest
          return ((key, value) :: members, behind)
        | 0x7D :: rest => return ([(key, value)], rest)
        | _ => none
      | _ => none
    | _ => none

end

/-- The value in front of a text. What stands behind the value is not looked at. -/
def first? (text : Text) : Option Json :=
  (readValue (2 * text.length + 2) 0 text).map Prod.fst

end Json

end ThreeAddress

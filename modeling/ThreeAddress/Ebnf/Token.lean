import ThreeAddress.Text.Classes
import ThreeAddress.Text.Quoted

/-!
The tokens of an EBNF text.

A text is cut into names, numbers, quoted strings and single characters.
Blanks and comments only separate tokens.
-/

namespace ThreeAddress.Ebnf

/-- The kind of a token. -/
inductive TokenKind where
  | endOfText
  | identifier
  | integer
  | float
  | character
  | string
  | rawString
  | symbol (char : Char)
deriving DecidableEq, Repr

def TokenKind.text : TokenKind → Text
  | endOfText => "EOF"
  | identifier => "Ident"
  | integer => "Int"
  | float => "Float"
  | character => "Char"
  | string => "String"
  | rawString => "RawString"
  | symbol char => Text.quoted (String.utf8EncodeChar char)

/-- A token, with the line and the column of its first character. -/
structure Token where
  kind : TokenKind
  text : Text
  line : Nat
  column : Nat
deriving DecidableEq, Repr

/-- A character of a text, with its line and its column. -/
structure Located where
  char : Char
  line : Nat
  column : Nat
deriving DecidableEq, Repr

/-- The characters of a text with their places, counted on from the given one. -/
private def locate : Nat → Nat → List Char → List Located
  | _, _, [] => []
  | line, column, char :: rest =>
    ⟨char, line, column⟩ ::
      (if char == '\n' then locate (line + 1) 1 rest else locate line (column + 1) rest)

private def Located.behind (located : Located) : Nat × Nat :=
  if located.char == '\n' then (located.line + 1, 1) else (located.line, located.column + 1)

private def isDigit (char : Char) : Bool :=
  '0' ≤ char && char ≤ '9'

/-- Whether a character is a digit of a number in base sixteen. -/
private def isHexDigit (char : Char) : Bool :=
  isDigit char || ('a' ≤ char && char ≤ 'f') || ('A' ≤ char && char ≤ 'F')

private def startsName (char : Char) : Bool :=
  char == '_' || Text.isLetter char.toNat

private def continuesName (char : Char) : Bool :=
  startsName char || Text.isDecimalDigit char.toNat

/-- The number of digits in front, with the underscores between them. -/
private def digitRun (isDigitOf : Char → Bool) (chars : List Char) : Nat :=
  (chars.takeWhile fun char => isDigitOf char || char == '_').length

private def exponentRun : List Char → Nat
  | mark :: rest =>
    if mark == 'e' || mark == 'E' || mark == 'p' || mark == 'P' then
      match rest with
      | sign :: digits =>
        if sign == '+' || sign == '-' then 2 + digitRun isDigit digits
        else 1 + digitRun isDigit rest
      | [] => 1
    else 0
  | [] => 0

/-- The end of a number behind its whole part: whether it makes a float, and its length. -/
private def numberTail (isDigitOf : Char → Bool) (chars : List Char) : Bool × Nat :=
  match chars with
  | '.' :: fraction =>
    let digits := digitRun isDigitOf fraction
    (true, 1 + digits + exponentRun (fraction.drop digits))
  | _ =>
    let exponent := exponentRun chars
    (exponent != 0, exponent)

/-- A number in front: whether it is a float, and its length. -/
private def numberRun (chars : List Char) : Bool × Nat :=
  let (isDigitOf, marker) : (Char → Bool) × Nat := match chars with
    | '0' :: mark :: _ =>
      if mark == 'x' || mark == 'X' then (isHexDigit, 2)
      else if mark == 'o' || mark == 'O' || mark == 'b' || mark == 'B' then (isDigit, 2)
      else (isDigit, 1)
    | _ => (isDigit, 0)
  let whole := marker + digitRun isDigitOf (chars.drop marker)
  let (isFloat, tail) := numberTail isDigitOf (chars.drop whole)
  (isFloat, whole + tail)

/-- The length of a quoted literal behind its opening quote. It ends with its line at the latest. -/
private def quotedRun (quote : Char) : List Char → Nat
  | [] => 0
  | '\\' :: char :: rest =>
    if char == quote || char == '\\' then 2 + quotedRun quote rest
    else 1 + quotedRun quote (char :: rest)
  | char :: rest =>
    if char == quote || char == '\n' then 1 else 1 + quotedRun quote rest

/-- The length of a raw literal behind its opening quote. -/
private def rawRun : List Char → Nat
  | [] => 0
  | char :: rest => if char == '\x60' then 1 else 1 + rawRun rest

/-- The length of a comment behind its opening marks. -/
private def commentRun : List Char → Nat
  | [] => 0
  | '*' :: '/' :: _ => 2
  | _ :: rest => 1 + commentRun rest

/-- What stands in front of a text: the kind of a token, or nothing for a comment, and its length. -/
private def lexeme (char : Char) (rest : List Char) : Option TokenKind × Nat :=
  if startsName char then (some .identifier, 1 + (rest.takeWhile continuesName).length)
  else if isDigit char then
    let (isFloat, length) := numberRun (char :: rest)
    (some (if isFloat then .float else .integer), length)
  else match char, rest with
    | '"', _ => (some .string, 1 + quotedRun '"' rest)
    | '\x27', _ => (some .character, 1 + quotedRun '\x27' rest)
    | '\x60', _ => (some .rawString, 1 + rawRun rest)
    | '.', next :: _ =>
      if isDigit next then
        let digits := digitRun isDigit rest
        (some .float, 1 + digits + exponentRun (rest.drop digits))
      else (some (.symbol '.'), 1)
    -- Comments are cut out like tokens, and nothing is delivered for them.
    | '/', '/' :: _ => (none, (rest.takeWhile fun char => char != '\n').length + 1)
    | '/', '*' :: behind => (none, 2 + commentRun behind)
    | _, _ => (some (.symbol char), 1)

/-- The characters that only separate tokens. -/
private def isBlank (char : Char) : Bool :=
  char == ' ' || char == '\t' || char == '\n' || char == '\r'

/-- The tokens of a text of which the first characters still belong to the lexeme before. -/
private def tokensAfter : Nat → List Located → List Token
  | _, [] => []
  | taken + 1, _ :: rest => tokensAfter taken rest
  | 0, located :: rest =>
    if isBlank located.char then tokensAfter 0 rest
    else
      let chars := rest.map Located.char
      match lexeme located.char chars with
      | (none, length) => tokensAfter (length - 1) rest
      | (some kind, length) =>
        { kind, text := Text.ofString (String.ofList ((located.char :: chars).take length))
          line := located.line, column := located.column } :: tokensAfter (length - 1) rest

/-- The characters of a text with their places. A byte order mark in front takes a place and no more. -/
private def locatedChars (text : Text) : List Located :=
  let chars := text.glyphs.map fun glyph => Char.ofNat glyph.code
  match locate 1 1 chars with
  | mark :: rest => if mark.char == '﻿' then rest else mark :: rest
  | [] => []

private def endPlace (text : Text) : Nat × Nat :=
  match (locate 1 1 (text.glyphs.map fun glyph => Char.ofNat glyph.code)).getLast? with
  | some located => located.behind
  | none => (0, 0)

def tokens (text : Text) : List Token :=
  let (line, column) := endPlace text
  tokensAfter 0 (locatedChars text) ++ [{ kind := .endOfText, text := [], line, column }]

end ThreeAddress.Ebnf

import ThreeAddress.Regex.Basic

/-!
The usual notation of regular expressions.

Parentheses group, a bar separates alternatives, and `*`, `+` and `?` repeat what stands before them.
A point is any byte, brackets enclose a set of bytes, and a backslash takes away the meaning of what follows.
-/

namespace ThreeAddress.Regex

def unescape (byte : UInt8) : UInt8 :=
  if byte = 'n'.toUInt8 then '\n'.toUInt8
  else if byte = 'r'.toUInt8 then '\r'.toUInt8
  else if byte = 't'.toUInt8 then '\t'.toUInt8
  else byte

/-- Reads one byte, which a backslash may escape. -/
private def readByte? : Text → Option (UInt8 × Text)
  | [] => none
  | [byte] => if byte = '\\'.toUInt8 then none else some (byte, [])
  | byte :: next :: rest =>
    if byte = '\\'.toUInt8 then some (unescape next, rest) else some (byte, next :: rest)

private def readRanges? : Nat → Text → Option (List (UInt8 × UInt8) × Text)
  | 0, _ => none
  | steps + 1, text => do
    if text.head? = some ']'.toUInt8 then return ([], text.tail)
    let (first, behind) ← readByte? text
    let (last, behind) ←
      if behind.head? = some '-'.toUInt8 then readByte? behind.tail else some (first, behind)
    let (ranges, behind) ← readRanges? steps behind
    return ((first, last) :: ranges, behind)

private def readMarks (body : Regex) : Text → Regex × Text
  | [] => (body, [])
  | mark :: rest =>
    if mark = '*'.toUInt8 then readMarks (star body) rest
    else if mark = '+'.toUInt8 then readMarks (plus body) rest
    else if mark = '?'.toUInt8 then readMarks (optional body) rest
    else (body, mark :: rest)

mutual

private def readAlternatives? : Nat → Text → Option (Regex × Text)
  | 0, _ => none
  | steps + 1, text => do
    let (left, behind) ← readSequence? steps text
    if behind.head? = some '|'.toUInt8 then
      let (right, behind) ← readAlternatives? steps behind.tail
      return (alt left right, behind)
    else return (left, behind)

/-- Reads one expression behind the other, up to a bar, a closing parenthesis or the end. -/
private def readSequence? : Nat → Text → Option (Regex × Text)
  | 0, _ => none
  | steps + 1, text =>
    match text with
    | [] => some (empty, [])
    | mark :: rest =>
      if mark = '|'.toUInt8 || mark = ')'.toUInt8 then some (empty, mark :: rest)
      else do
        let (item, behind) ← readItem? steps text
        let (repeated, behind) := readMarks item behind
        let (others, behind) ← readSequence? steps behind
        return (if others = empty then repeated else seq repeated others, behind)

private def readItem? : Nat → Text → Option (Regex × Text)
  | 0, _ => none
  | steps + 1, text => do
    if text.head? = some '('.toUInt8 then
      let (body, behind) ← readAlternatives? steps text.tail
      if behind.head? = some ')'.toUInt8 then return (body, behind.tail) else none
    else if text.head? = some '['.toUInt8 then
      let negated := text.tail.head? = some '^'.toUInt8
      let (ranges, behind) ← readRanges? text.length (if negated then text.tail.tail else text.tail)
      return (oneOf { ranges, negated }, behind)
    else if text.head? = some '.'.toUInt8 then
      return (oneOf { ranges := [], negated := true }, text.tail)
    else
      let (byte, behind) ← readByte? text
      return (oneOf (ByteClass.single byte), behind)

end

def read? (text : Text) : Option Regex :=
  match readAlternatives? (3 * text.length + 3) text with
  | some (regex, []) => some regex
  | _ => none

end ThreeAddress.Regex

import ThreeAddress.Text.Glyph
import ThreeAddress.Text.Classes

/-! Quoting: a text between double quotes, with everything that would not show escaped. -/

namespace ThreeAddress.Text

/-- The letter behind the backslash of a control character that has one. -/
def escapeLetter? (code : Nat) : Option Text :=
  match code with
  | 0x07 => some "a"
  | 0x08 => some "b"
  | 0x0C => some "f"
  | 0x0A => some "n"
  | 0x0D => some "r"
  | 0x09 => some "t"
  | 0x0B => some "v"
  | _ => none

def quotedCode (quote : Nat) (char : Char) : Text :=
  let code := char.toNat
  if code == quote || code == 0x5C then "\\" ++ String.utf8EncodeChar char
  -- Only what could not be seen is escaped, whether or not it is English.
  else if isPrintable code then String.utf8EncodeChar char
  else match escapeLetter? code with
    | some letter => "\\" ++ letter
    | none =>
      if code < 0x80 then "\\x" ++ ofHex 2 code
      else if code < 0x10000 then "\\u" ++ ofHex 4 code
      else "\\U" ++ ofHex 8 code

/-- A glyph between double quotes: bytes that form no character are shown by their value. -/
def quotedGlyph : Glyph → Text
  | .scalar char => quotedCode 0x22 char
  | .stray byte => "\\x" ++ ofHex 2 byte.toNat

def quoted (text : Text) : Text :=
  "\"" ++ text.glyphs.flatMap quotedGlyph ++ "\""

def quotedChar (char : Char) : Text :=
  "'" ++ quotedCode 0x27 char ++ "'"

end ThreeAddress.Text

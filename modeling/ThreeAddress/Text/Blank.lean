import ThreeAddress.Text.Glyph

/-! White space, and texts without it at their ends. -/

namespace ThreeAddress.Text

/-- Whether a code point is white space. -/
def isBlank (code : Nat) : Bool :=
  (0x09 ≤ code && code ≤ 0x0D) || code == 0x20 || code == 0x85 || code == 0xA0 ||
    code == 0x1680 || (0x2000 ≤ code && code ≤ 0x200A) || code == 0x2028 || code == 0x2029 ||
    code == 0x202F || code == 0x205F || code == 0x3000

/-- A text without white space at its ends. -/
def trim (text : Text) : Text :=
  let front := text.glyphs.dropWhile fun glyph => isBlank glyph.code
  ofGlyphs (front.reverse.dropWhile fun glyph => isBlank glyph.code).reverse

end ThreeAddress.Text

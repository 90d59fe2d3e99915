import ThreeAddress.Text.Glyph

/-!
Comparison without regard to case.

Two characters are equal up to case when simple folding takes them to one another.
Among the letters of English, K also folds with the kelvin sign and S with the long s.
-/

namespace ThreeAddress.Text

/-- Whether a code point folds with a lower-case English letter, or is the given character itself. -/
def foldsWith (letter : Nat) (code : Nat) : Bool :=
  code == letter ||
    (0x61 ≤ letter && letter ≤ 0x7A &&
      (code + 0x20 == letter || (letter == 0x6B && code == 0x212A) ||
        (letter == 0x73 && code == 0x17F)))

def glyphsFold : List Nat → List Glyph → Bool
  | [], [] => true
  | letter :: letters, .scalar char :: glyphs =>
    foldsWith letter char.toNat && glyphsFold letters glyphs
  | _, _ => false

/-- Whether a text equals a word of lower-case English letters up to case. -/
def equalsFolded (text : Text) (word : String) : Bool :=
  glyphsFold (word.toList.map Char.toNat) text.glyphs

end ThreeAddress.Text

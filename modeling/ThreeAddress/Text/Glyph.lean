import ThreeAddress.Text.Basic

/-!
The characters of a text.

Decoding never fails: a byte that starts no well-formed encoding stands for itself, and decoding goes on behind it.
-/

namespace ThreeAddress

/-- One step of reading a text: a character, or a byte that belongs to none. -/
inductive Glyph where
  | scalar (char : Char)
  | stray (byte : UInt8)
deriving DecidableEq, Repr

namespace Glyph

/-- What the bytes of a glyph are read as where a character is needed: strays become U+FFFD. -/
def code : Glyph → Nat
  | scalar char => char.toNat
  | stray _ => 0xFFFD

def bytes : Glyph → Text
  | scalar char => String.utf8EncodeChar char
  | stray byte => [byte]

def continues (byte : UInt8) : Bool :=
  0x80 ≤ byte && byte ≤ 0xBF

/-- The low six bits that a continuation byte carries. -/
def payload (byte : UInt8) : Nat :=
  byte.toNat % 64

/--
The glyph in front of a text, and how many bytes it takes beyond the first.

Encodings that are longer than needed, surrogates and values above U+10FFFF are not well formed.
-/
def first (lead : UInt8) (rest : Text) : Glyph × Nat :=
  if lead < 0x80 then (scalar (Char.ofNat lead.toNat), 0)
  else if 0xC2 ≤ lead && lead ≤ 0xDF then
    match rest with
    | b :: _ =>
      if continues b then (scalar (Char.ofNat (lead.toNat % 32 * 64 + payload b)), 1)
      else (stray lead, 0)
    | [] => (stray lead, 0)
  else if 0xE0 ≤ lead && lead ≤ 0xEF then
    match rest with
    | b :: c :: _ =>
      -- The second byte excludes encodings that are too long, and surrogates.
      let low : UInt8 := if lead == 0xE0 then 0xA0 else 0x80
      let high : UInt8 := if lead == 0xED then 0x9F else 0xBF
      if low ≤ b && b ≤ high && continues c then
        (scalar (Char.ofNat (lead.toNat % 16 * 4096 + payload b * 64 + payload c)), 2)
      else (stray lead, 0)
    | _ => (stray lead, 0)
  else if 0xF0 ≤ lead && lead ≤ 0xF4 then
    match rest with
    | b :: c :: d :: _ =>
      -- The second byte excludes encodings that are too long, and values beyond the last character.
      let low : UInt8 := if lead == 0xF0 then 0x90 else 0x80
      let high : UInt8 := if lead == 0xF4 then 0x8F else 0xBF
      if low ≤ b && b ≤ high && continues c && continues d then
        (scalar (Char.ofNat
          (lead.toNat % 8 * 262144 + payload b * 4096 + payload c * 64 + payload d)), 3)
      else (stray lead, 0)
    | _ => (stray lead, 0)
  else (stray lead, 0)

end Glyph

namespace Text

/-- Glyphs of a text of which the first bytes still belong to the glyph before. -/
def glyphsAfter : Nat → Text → List Glyph
  | _, [] => []
  | taken + 1, _ :: rest => glyphsAfter taken rest
  | 0, lead :: rest =>
    let (glyph, extra) := Glyph.first lead rest
    glyph :: glyphsAfter extra rest

def glyphs (text : Text) : List Glyph :=
  glyphsAfter 0 text

def ofGlyphs (glyphs : List Glyph) : Text :=
  glyphs.flatMap Glyph.bytes

end Text

end ThreeAddress

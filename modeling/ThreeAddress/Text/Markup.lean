import ThreeAddress.Text.Basic

/-! Texts inside a markup document. -/

namespace ThreeAddress.Text

/-- A byte as it stands in a document: the five characters with a meaning there are named. -/
def markupByte (byte : UInt8) : Text :=
  match byte with
  | 0x3C => "&lt;"
  | 0x3E => "&gt;"
  | 0x26 => "&amp;"
  | 0x27 => "&#39;"
  | 0x22 => "&#34;"
  | _ => [byte]

/-- The text with every character that has a meaning in markup written by its name. -/
def markup (text : Text) : Text :=
  text.flatMap markupByte

end ThreeAddress.Text

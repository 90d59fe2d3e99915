import ThreeAddress.Text.Glyph

/-! The text that a string literal stands for. -/

namespace ThreeAddress.Ebnf

private def digitValue? (base : Nat) (byte : UInt8) : Option Nat :=
  let value :=
    if 0x30 ≤ byte && byte ≤ 0x39 then byte.toNat - 0x30
    else if 0x61 ≤ byte && byte ≤ 0x66 then byte.toNat - 0x57
    else if 0x41 ≤ byte && byte ≤ 0x46 then byte.toNat - 0x37
    else base
  if value < base then some value else none

private def digitsValue? (base : Nat) (digits : Text) : Option Nat :=
  digits.foldlM (fun value digit => do return value * base + (← digitValue? base digit)) 0

/-- The bytes of a code point. Surrogates and values out of range are none. -/
private def codePoint? (code : Nat) : Option Text :=
  if code < 0xD800 || (0xE000 ≤ code && code < 0x110000) then
    some (String.utf8EncodeChar (Char.ofNat code))
  else none

/-- What a single letter behind a backslash stands for. -/
private def letterEscape? (letter : UInt8) : Option UInt8 :=
  match letter with
  | 0x61 => some 0x07
  | 0x62 => some 0x08
  | 0x66 => some 0x0C
  | 0x6E => some 0x0A
  | 0x72 => some 0x0D
  | 0x74 => some 0x09
  | 0x76 => some 0x0B
  | 0x5C => some 0x5C
  | 0x22 => some 0x22
  | _ => none

/-- The text of a literal behind its opening quote: the closing quote is its last character. -/
private def body? : Text → Option Text
  | [] => none
  | 0x22 :: rest => if rest.isEmpty then some [] else none
  | 0x5C :: 0x78 :: a :: b :: rest => do
    let value ← digitsValue? 16 [a, b]
    return value.toUInt8 :: (← body? rest)
  | 0x5C :: 0x75 :: a :: b :: c :: d :: rest => do
    let code ← codePoint? (← digitsValue? 16 [a, b, c, d])
    return code ++ (← body? rest)
  | 0x5C :: 0x55 :: a :: b :: c :: d :: e :: f :: g :: h :: rest => do
    let code ← codePoint? (← digitsValue? 16 [a, b, c, d, e, f, g, h])
    return code ++ (← body? rest)
  | 0x5C :: letter :: rest =>
    match letterEscape? letter with
    | some byte => do return byte :: (← body? rest)
    | none =>
      match rest with
      | a :: b :: rest => do
        let value ← digitsValue? 8 [letter, a, b]
        if value < 256 then return value.toUInt8 :: (← body? rest) else none
      | _ => none
  | byte :: rest =>
    if byte == 0x0A || byte == 0x5C then none
    else do return byte :: (← body? rest)

/-- The text that a string literal stands for. A literal that is not well formed stands for nothing. -/
def literalText (literal : Text) : Text :=
  match literal with
  | _ :: rest => (body? rest).getD []
  | [] => []

end ThreeAddress.Ebnf

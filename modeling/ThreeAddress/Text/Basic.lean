/-!
Texts as sequences of bytes.

Sources may hold bytes that form no character, and such bytes reach lexemes, listings and error messages.
Every text that a source can influence is therefore kept as its bytes.
-/

namespace ThreeAddress

/-- A text is the sequence of its bytes, UTF-8 wherever it was written as characters. -/
abbrev Text := List UInt8

namespace Text

def ofString (string : String) : Text :=
  string.toByteArray.data.toList

instance : Coe String Text := ⟨ofString⟩

/-- The string a text encodes, where every byte is part of a character. -/
def toString? (text : Text) : Option String :=
  String.fromUTF8? ⟨text.toArray⟩

def ofNat (number : Nat) : Text :=
  (Nat.toDigits 10 number).map fun digit => digit.toNat.toUInt8

theorem ofNat_injective {number other : Nat} (same : Text.ofNat number = Text.ofNat other) :
    number = other := by
  -- Digits are bytes, so the characters can be read back from them.
  have recovered : ∀ value : Nat,
      (Text.ofNat value).map (fun byte => Char.ofNat byte.toNat) = Nat.toDigits 10 value := by
    intro value
    rw [Text.ofNat, List.map_map]
    conv => rhs; rw [← List.map_id (Nat.toDigits 10 value)]
    refine List.map_congr_left fun digit member => ?_
    have isDigit := Nat.isDigit_of_mem_toDigits (by decide) (by decide) member
    simp only [Char.isDigit, Bool.and_eq_true, decide_eq_true_eq] at isDigit
    have small : digit.toNat < 256 :=
      Nat.lt_of_le_of_lt (UInt32.le_iff_toNat_le.mp isDigit.2) (by decide)
    simp [Nat.mod_eq_of_lt small]
  have digits : Nat.toDigits 10 number = Nat.toDigits 10 other := by
    rw [← recovered, ← recovered, same]
  simpa using congrArg (fun digits => Nat.ofDigitChars 10 digits 0) digits

/-- An integer in decimal digits, behind a minus sign when it is negative. -/
def ofInt : Int → Text
  | .ofNat number => ofNat number
  | .negSucc number => "-" ++ ofNat (number + 1)

/-- The texts in order, with the separator between any two neighbours. -/
def join (separator : Text) : List Text → Text
  | [] => []
  | [last] => last
  | first :: second :: rest => first ++ separator ++ join separator (second :: rest)

def startsWith (text start : Text) : Bool :=
  start.isPrefixOf text

/-- A number in hexadecimal digits, filled up with zeros to at least the given width. -/
def ofHex (width number : Nat) : Text :=
  let digits : Text := (Nat.toDigits 16 number).map fun digit => digit.toNat.toUInt8
  List.replicate (width - digits.length) 0x30 ++ digits

/-- Lexicographic order by bytes, which for characters is the order of their code points. -/
def le : Text → Text → Bool
  | [], _ => true
  | _ :: _, [] => false
  | a :: as, b :: bs => a < b || (a == b && le as bs)

end Text

end ThreeAddress

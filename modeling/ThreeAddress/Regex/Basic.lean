import ThreeAddress.Text.Basic

/-! Regular expressions over bytes, and their derivatives. -/

namespace ThreeAddress

/-- A set of bytes: those within some ranges, or all others. -/
structure ByteClass where
  ranges : List (UInt8 × UInt8)
  negated : Bool := false
deriving DecidableEq, Repr

namespace ByteClass

def contains (set : ByteClass) (byte : UInt8) : Bool :=
  set.ranges.any (fun range => range.1 ≤ byte && byte ≤ range.2) != set.negated

def single (byte : UInt8) : ByteClass :=
  { ranges := [(byte, byte)] }

def ofChars (chars : List Char) : ByteClass :=
  { ranges := chars.map fun char => (char.toUInt8, char.toUInt8) }

def between (first last : Char) : ByteClass :=
  { ranges := [(first.toUInt8, last.toUInt8)] }

def others (set : ByteClass) : ByteClass :=
  { set with negated := !set.negated }

/-- The bytes of two sets without negation. -/
def also (left right : ByteClass) : ByteClass :=
  { left with ranges := left.ranges ++ right.ranges }

end ByteClass

/-- A regular expression. -/
inductive Regex where
  | never
  | empty
  | oneOf (set : ByteClass)
  | seq (first second : Regex)
  | alt (left right : Regex)
  | star (body : Regex)
deriving DecidableEq, Repr

namespace Regex

def ofText (text : Text) : Regex :=
  text.foldr (fun byte rest => seq (oneOf (ByteClass.single byte)) rest) empty

def optional (body : Regex) : Regex :=
  alt body empty

def plus (body : Regex) : Regex :=
  seq body (star body)

def matchesEmpty : Regex → Bool
  | never => false
  | empty => true
  | oneOf _ => false
  | seq first second => first.matchesEmpty && second.matchesEmpty
  | alt left right => left.matchesEmpty || right.matchesEmpty
  | star _ => true

/-- A sequence, where one that cannot match is `never`. -/
def andThen (first second : Regex) : Regex :=
  match first, second with
  | never, _ => never
  | _, never => never
  | empty, second => second
  | first, second => seq first second

def orElse (left right : Regex) : Regex :=
  match left, right with
  | never, right => right
  | left, never => left
  | left, right => alt left right

def derivative (byte : UInt8) : Regex → Regex
  | never => never
  | empty => never
  | oneOf set => if set.contains byte then empty else never
  | seq first second =>
    -- Where the first part can be empty, the byte may belong to the second.
    if first.matchesEmpty then
      orElse (andThen (first.derivative byte) second) (second.derivative byte)
    else andThen (first.derivative byte) second
  | alt left right => orElse (left.derivative byte) (right.derivative byte)
  -- A repetition reads the byte with its next round.
  | star body => andThen (body.derivative byte) (star body)

def accepts (regex : Regex) (text : Text) : Bool :=
  (text.foldl (fun left byte => left.derivative byte) regex).matchesEmpty

end Regex

end ThreeAddress

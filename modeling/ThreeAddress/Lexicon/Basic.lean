import ThreeAddress.Regex.Basic

/-!
Lexicons, and how they cut a text into pieces.

Every piece is the longest text that a rule of the lexicon matches, and of several such rules the first counts.
Where no rule matches, the piece goes on until no rule could match any more, with the byte that shows it.
-/

namespace ThreeAddress

/-- Why rules do not make a lexicon. -/
inductive LexiconError where
  | noRules
  | matchesEmpty
  | unreadable (keyword : Text)
deriving DecidableEq, Repr

def LexiconError.message : LexiconError → Text
  | noRules => "No patterns added"
  | matchesEmpty => "One or more of the supplied patterns match the empty string"
  | unreadable keyword => "not a regular expression: " ++ keyword

/-- Rules in order of precedence, each with the kind of its matches. No rule matches the empty text. -/
structure Lexicon (κ : Type) where
  rules : List (Regex × κ)
  proper : rules.all (fun rule => !rule.1.matchesEmpty) = true

/-- A part of a text: where it starts, its bytes, and its kind, unless no rule matches there. -/
structure Piece (κ : Type) where
  start : Nat
  text : Text
  kind : Option κ
deriving DecidableEq, Repr

def Piece.stop {κ : Type} (piece : Piece κ) : Nat :=
  piece.start + piece.text.length

namespace Lexicon

variable {κ : Type}

def ofRules (rules : List (Regex × κ)) : Except LexiconError (Lexicon κ) :=
  if rules.isEmpty then .error .noRules
  else if proper : rules.all (fun rule => !rule.1.matchesEmpty) = true then .ok ⟨rules, proper⟩
  else .error .matchesEmpty

def advance (rules : List (Regex × κ)) (byte : UInt8) : List (Regex × κ) :=
  rules.filterMap fun rule =>
    match rule.1.derivative byte with
    | .never => none
    | regex => some (regex, rule.2)

def accepted? (rules : List (Regex × κ)) : Option κ :=
  (rules.find? fun rule => rule.1.matchesEmpty).map Prod.snd

/--
The length and the kind of the piece in front of a text.

Some of its bytes have been read already: the rules left are those that can still match, and the longest match so far is known.
-/
def extent : List (Regex × κ) → Nat → Option (Nat × κ) → Text → Nat × Option κ
  | _, _, some (length, kind), [] => (length, some kind)
  | _, read, none, [] => (read, none)
  | rules, read, longest, byte :: rest =>
    -- Reading stops where no rule can go on, which need not be where the last match ended.
    match advance rules byte, longest with
    | [], some (length, kind) => (length, some kind)
    | [], none => (read + 1, none)
    | left, longest =>
      match accepted? left with
      -- The rules keep their order, so the first one that matches now has precedence.
      | some kind => extent left (read + 1) (some (read + 1, kind)) rest
      | none => extent left (read + 1) longest rest

def piecesAfter (lexicon : Lexicon κ) : Nat → Nat → Text → List (Piece κ)
  | _, _, [] => []
  | taken + 1, start, _ :: rest => piecesAfter lexicon taken (start + 1) rest
  | 0, start, byte :: rest =>
    -- A piece has at least one byte, and the bytes behind its first are passed over one by one.
    let (length, kind) := extent lexicon.rules 0 none (byte :: rest)
    { start, text := (byte :: rest).take length, kind } ::
      piecesAfter lexicon (length - 1) (start + 1) rest

def pieces (lexicon : Lexicon κ) (text : Text) : List (Piece κ) :=
  piecesAfter lexicon 0 0 text

end Lexicon

end ThreeAddress

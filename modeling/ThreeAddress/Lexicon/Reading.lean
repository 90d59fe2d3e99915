import ThreeAddress.Lexicon.Basic
import ThreeAddress.Regex.Reader
import ThreeAddress.Text.Lowercase
import ThreeAddress.Token

/-! From the pieces of a text to tokens. -/

namespace ThreeAddress

/-- What became of a piece. -/
inductive PieceOutcome where
  | skipped
  | rejected (error : Diagnostic)
  | token (token : Token) (errors : List Diagnostic)
  | fault (cause : Fault)
deriving Repr

def Piece.undefined {κ : Type} (piece : Piece κ) : Diagnostic :=
  .undefinedToken piece.text ("input at offset " ++ Text.ofNat piece.start)

def Piece.span {κ : Type} (piece : Piece κ) : Span :=
  ⟨piece.start.toUInt64, piece.stop.toUInt64⟩

/--
Reads pieces one after the other, with a state that is carried along.

Errors are kept for the next token.
The last reading is the end of the text, and behind a fault nothing is read.
-/
def readPieces {κ σ : Type} (interpret : Piece κ → σ → PieceOutcome × σ) (last : Token) :
    List Diagnostic → List (Piece κ) → σ → List Reading × σ
  | errors, [], state => ([{ errors, outcome := .ok last }], state)
  | errors, piece :: rest, state =>
    match interpret piece state with
    | (.skipped, state) => readPieces interpret last errors rest state
    -- Nothing is delivered for a rejected piece, and its error waits for the next token.
    | (.rejected error, state) => readPieces interpret last (errors ++ [error]) rest state
    | (.fault cause, state) => ([{ errors, outcome := .error cause }], state)
    | (.token token more, state) =>
      let (readings, state) := readPieces interpret last [] rest state
      ({ errors := errors ++ more, outcome := .ok token } :: readings, state)

/-- How a rule of a word lexicon treats its matches. -/
inductive WordRule where
  | skip
  | token (category : Category)
  /-- The token refers to what its text is known to name. -/
  | name (category : Category)
deriving DecidableEq, Repr

/-- The rules of some keywords, in lower case and in the notation of regular expressions. -/
def keywordRules {κ : Type} (kind : Text → κ) (keywords : List Text) :
    Except LexiconError (List (Regex × κ)) :=
  keywords.mapM fun keyword =>
    match Regex.read? keyword.toLower with
    | some regex => .ok (regex, kind keyword)
    | none => .error (.unreadable keyword)

def literalRules {κ : Type} (kind : Text → κ) (literals : List Text) : List (Regex × κ) :=
  literals.map fun literal => (Regex.ofText (literal.map Regex.unescape), kind literal)

namespace WordRule

def interpret (known : Text → Option Handle) (piece : Piece WordRule) (state : Unit) :
    PieceOutcome × Unit :=
  let token (category : Category) (handle : Handle) : PieceOutcome :=
    .token { category, lexeme := piece.text, handle, span := piece.span } []
  match piece.kind with
  | none => (.rejected piece.undefined, state)
  | some .skip => (.skipped, state)
  | some (.token category) => (token category Handle.absent, state)
  | some (.name category) =>
    match known piece.text with
    | some handle => (token category handle, state)
    | none => (.rejected (.undeclaredSymbol piece.text "known"), state)

def read (lexicon : Lexicon WordRule) (known : Text → Option Handle) (text : Text) : TokenSource :=
  let last := Token.atEnd text.length
  { readings := (readPieces (interpret known) last [] (lexicon.pieces text) ()).1, last }

end WordRule

end ThreeAddress

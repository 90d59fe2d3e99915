import ThreeAddress.Proofs.Language.Headers

/-!
Where tokens stand in a text.

The pieces of a text lie side by side and cover it.
Main statement: every piece is a token as it stands there, or is passed over, or is reported as an error, up to the end of the text or a fault.
-/

namespace ThreeAddress

theorem TokenSource.answer_behind {source : TokenSource} {count : Nat}
    (behind : source.readings.length ≤ count) : source.answer count = { outcome := .ok source.last } := by
  induction count generalizing source with
  | zero =>
    obtain ⟨readings, last⟩ := source
    obtain rfl := List.length_eq_zero_iff.mp (Nat.le_zero.mp behind)
    rfl
  | succ count ih =>
    obtain ⟨readings, last⟩ := source
    cases readings with
    | nil => exact @ih ⟨[], last⟩ (Nat.zero_le _)
    | cons reading others => exact @ih ⟨others, last⟩ (Nat.le_of_succ_le_succ behind)

namespace Language

/-- The category of the tokens of a kind. -/
def WordKind.category? : WordKind → Option Category
  | .blank => none
  | .name => some identifier
  | .number | .character => some constant
  | .fixed category => some category

/-- What a piece of a text gives. Blanks and comments give nothing, and only literals are malformed. -/
inductive Gives (piece : Piece WordKind) : PieceOutcome → Prop where
  | blank (isKind : piece.kind = some .blank) : Gives piece .skipped
  | undefined (isKind : piece.kind = none) : Gives piece (.rejected piece.undefined)
  | malformed (isKind : piece.kind = some .number ∨ piece.kind = some .character)
    (text type : Text) (cause : Option Text) :
    Gives piece (.rejected (.malformedConstant text type cause))
  | token {kind : WordKind} {token : Token} {errors : List Diagnostic}
    (isKind : piece.kind = some kind) (category : kind.category? = some token.category)
    (lexeme : token.lexeme = piece.text) (span : token.span = piece.span) :
    Gives piece (.token token errors)
  | fault (cause : Fault) : Gives piece (.fault cause)

/-- What is read from pieces, where errors wait for the next token. -/
def Delivered (last : Token) : List Diagnostic → List (Piece WordKind) → List Reading → Prop
  | errors, [], readings => readings = [{ errors, outcome := .ok last }]
  | errors, piece :: rest, readings => ∃ outcome, Gives piece outcome ∧
    match outcome with
    | .skipped => Delivered last errors rest readings
    | .rejected error => Delivered last (errors ++ [error]) rest readings
    | .fault cause => readings = [{ errors, outcome := .error cause }]
    | .token token more => ∃ others, Delivered last [] rest others ∧
      readings = { errors := errors ++ more, outcome := .ok token } :: others

variable {piece : Piece WordKind} {kind : WordKind} {token : Token}

theorem finish_gives (isKind : piece.kind = some kind)
    (category : kind.category? = some token.category) (lexeme : token.lexeme = piece.text)
    (span : token.span = piece.span) (result : Except Failure Handle) (state : LexerState) :
    Gives piece (finish token result state).1 := by
  unfold finish
  split
  · exact .token isKind category lexeme span
  · exact .token isKind category lexeme span
  · exact .fault _
  · exact .token isKind category lexeme span

theorem intern_error {table : ConstantTable} {text : Text} {isCharacter : Bool} {error : Diagnostic}
    (refused : table.intern text isCharacter = .error error) :
    ∃ text type cause, error = .malformedConstant text type cause := by
  simp only [ConstantTable.intern, Constant.ofLiteral, Constant.ofCharacter, Constant.ofWord, bind,
    Except.bind, pure, Except.pure] at refused
  grind

theorem literal_gives (isKind : piece.kind = some kind)
    (isLiteral : kind = .number ∨ kind = .character) (category : token.category = constant)
    (lexeme : token.lexeme = piece.text) (span : token.span = piece.span) (text : Text)
    (isCharacter : Bool) (state : LexerState) :
    Gives piece (literal token text isCharacter state).1 := by
  rw [literal, Lex.intern_run]
  cases interned : state.environment.constants.intern text isCharacter with
  | error error =>
    obtain ⟨text, type, cause, rfl⟩ := intern_error interned
    refine .malformed ?_ text type cause
    rcases isLiteral with rfl | rfl
    · exact .inl isKind
    · exact .inr isKind
  | ok result =>
    refine finish_gives isKind ?_ lexeme span _ _
    rcases isLiteral with rfl | rfl <;> rw [category] <;> rfl

theorem interpret_gives (piece : Piece WordKind) (state : LexerState) :
    Gives piece (interpret piece state).1 := by
  unfold interpret
  split
  · exact .undefined ‹_›
  · exact .blank ‹_›
  · exact finish_gives ‹_› rfl rfl rfl _ _
  · exact literal_gives ‹_› (.inl rfl) rfl rfl rfl _ _ _
  · exact literal_gives ‹_› (.inr rfl) rfl rfl rfl _ _ _
  · exact finish_gives ‹_› rfl rfl rfl _ _

theorem delivered_readPieces (last : Token) (pieces : List (Piece WordKind)) :
    ∀ (errors : List Diagnostic) (state : LexerState),
      Delivered last errors pieces (readPieces interpret last errors pieces state).1 := by
  induction pieces with
  | nil => exact fun _ _ => rfl
  | cons piece rest ih =>
    intro errors state
    have gives := interpret_gives piece state
    rw [readPieces]
    rcases read : interpret piece state with ⟨outcome, after⟩
    rw [read] at gives
    refine ⟨outcome, gives, ?_⟩
    cases outcome with
    | skipped => exact ih errors after
    | rejected error => exact ih (errors ++ [error]) after
    | fault cause => rfl
    | token token more => exact ⟨_, ih [] after, rfl⟩

/--
Reading a text cuts it from the front into pieces that cover it, each one the longest match of the first rule that has it, or undefined where nothing matches.

Every piece is read in order: blanks are passed over, undefined pieces and malformed literals are reported, and every other piece is a token with its text and place.
Behind them every request gives the end of the text.
Reading stops early only at a name, new in its scope, that would be a parameter in a header left open.
-/
theorem lexFrom_tiles (text : Text) :
    Lexicon.Cut lexicalRules 0 text (lexicon.pieces text) ∧
    Delivered (Token.atEnd text.length) [] (lexicon.pieces text) (lexFrom .empty text).1.readings ∧
    (∀ count, (lexFrom .empty text).1.readings.length ≤ count →
      (lexFrom .empty text).1.answer count = { outcome := .ok (Token.atEnd text.length) }) ∧
    ∀ cause, (∃ reading ∈ (lexFrom .empty text).1.readings, reading.outcome = .error cause) ↔
      cause = .outOfBounds ∧
        ∃ before piece later tokens state, lexicon.pieces text = before ++ piece :: later ∧
          readOn before { environment := .empty } = some (tokens, state) ∧
          piece.kind = some .name ∧ LeavesHeaderOpen tokens ∧ CallsForParameter tokens ∧
          state.table.scopes.lookup? state.table.here piece.text = none := by
  refine ⟨lexicon.cut_piecesAfter 0 text, delivered_readPieces _ _ _ _, ?_, fun cause => ?_⟩
  · exact fun count behind => TokenSource.answer_behind behind
  · exact (fault_iff_meets (lexicon.pieces text) [] { environment := .empty }).trans meets_iff

/-- The name behind the function without parentheses is never delivered, and neither is the end of the text. -/
theorem header_without_parentheses_ends_reading :
    ((lexFrom .empty "func int #f \x7b \x7d int #x").1.readings.map Reading.outcome).getLast? =
      some (.error .outOfBounds) := by
  rfl

end Language

end ThreeAddress

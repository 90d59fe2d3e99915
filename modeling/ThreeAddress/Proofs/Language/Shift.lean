import ThreeAddress.Proofs.Language.Lexing
import ThreeAddress.Proofs.Symbols.Shift
import ThreeAddress.Proofs.Syntax.Relabelling

/-!
Reading a program into tables with entries in front.

The pieces of the program are read as before: its names refer to the moved handles, and everything else is the same.
-/

namespace ThreeAddress

/-- A token once some entries stand in front. Only names refer to entries. -/
def Token.shift (count : Nat) (token : Token) : Token :=
  if token.category = Language.identifier then { token with handle := token.handle.shift count }
  else token

theorem Token.shift_keeps (count : Nat) : Token.Keeps (Token.shift count) where
  category token := by rw [shift]; split <;> rfl
  lexeme token := by rw [shift]; split <;> rfl
  span token := by rw [shift]; split <;> rfl

/-- The tables of a program once some entries stand in front. -/
def Environment.shift (front : List Entry) (environment : Environment) : Environment :=
  { environment with symbols := environment.symbols.shift front }

/-- What became of a piece, with another token. -/
def PieceOutcome.map (change : Token → Token) : PieceOutcome → PieceOutcome
  | token found errors => token (change found) errors
  | outcome => outcome

namespace Language

/-- What reading a program has to remember once some entries stand in front. -/
def LexerState.shift (front : List Entry) (state : LexerState) : LexerState :=
  { state with
    environment := state.environment.shift front
    previous := state.previous.map (Token.shift front.length)
    beforePrevious := state.beforePrevious.map (Token.shift front.length)
    function := state.function.map fun function => (function.toNat : Int) + front.length }

section Shift

variable (front : List Entry) {state : LexerState}

@[simp]
theorem table_shift : (state.shift front).table = state.table.shift front := rfl

@[simp]
theorem behindType_shift : (state.shift front).behindType = state.behindType := by
  simp only [LexerState.behindType, LexerState.shift]
  cases state.previous with
  | none => rfl
  | some token => simp [(Token.shift_keeps front.length).category]

@[simp]
theorem typeBefore_shift : (state.shift front).typeBefore = state.typeBefore := by
  simp only [LexerState.typeBefore, LexerState.shift]
  cases state.previous with
  | none => rfl
  | some token => simp [(Token.shift_keeps front.length).lexeme]

@[simp]
theorem opening_shift : (state.shift front).opening = state.opening := by
  simp only [LexerState.opening, LexerState.shift]
  cases state.beforePrevious with
  | none => rfl
  | some token => simp [(Token.shift_keeps front.length).category]

theorem remember_shift (token : Token) :
    (state.shift front).remember (token.shift front.length) = (state.remember token).shift front := rfl

end Shift

theorem ite_natural {α β : Type} {choice : Prop} [Decidable choice] {change : α → β} {yes no : α}
    {otherYes otherNo : β} (one : otherYes = change yes) (two : otherNo = change no) :
    (if choice then otherYes else otherNo) = change (if choice then yes else no) := by
  split
  · exact one
  · exact two

namespace Lex

variable (front : List Entry) {state : LexerState}

/-- A step does as before: the handle it gives and the state it leaves are moved, and its failure is the same. -/
def Moves (step : Lex Handle) (state : LexerState) : Prop := step.run (state.shift front) =
    Prod.map (Except.map (Handle.shift front.length)) (LexerState.shift front) (step.run state)

theorem moves_symbols {operation : SymbolTable → Except Diagnostic (Handle × SymbolTable)}
    (commutes : operation (state.table.shift front) = (operation state.table).map
      (Prod.map (Handle.shift front.length) (SymbolTable.shift front))) :
    Moves front (symbols operation) state := by
  rw [Moves, symbols_run, symbols_run, table_shift, commutes]
  cases operation state.table with
  | error error => rfl
  | ok result => rfl

theorem moves_resolve (text : Text) : Moves front (resolve text) state := by
  refine moves_symbols front ?_
  rw [SymbolTable.resolve_shift]
  cases state.table.resolve text <;> rfl

theorem moves_declareFunction (text : Text) (returns : ValueType) :
    Moves front (declareFunction text returns) state := by
  rw [Moves, declareFunction_run, declareFunction_run, table_shift]
  have declared : (state.table.shift front).declareFunction text returns = _ :=
    state.table.declare_shift front 0 (.func { name := text, returns })
  rw [declared]
  cases made : state.table.declareFunction text returns with
  | error error =>
    rw [SymbolTable.declareFunction] at made
    rw [made]
    rfl
  | ok result =>
    -- The handle is that of the new entry, so it is moved by the plain sum wherever it is kept.
    obtain ⟨handle, table⟩ := result
    have isNew : 0 ≤ handle := by
      obtain ⟨rfl, -⟩ := SymbolTable.declare_ok made
      exact Int.natCast_nonneg _
    rw [SymbolTable.declareFunction] at made
    rw [made]
    simp only [Except.map, Prod.map, Handle.shift_of_valid _ isNew]
    rw [← Int.toNat_of_nonneg isNew, SymbolTable.openBody_shift front table handle]
    rfl

theorem moves_declareParameter (text : Text) (type : ValueType) :
    Moves front (declareParameter text type) state := by
  rw [Moves]
  cases reading : state.function with
  | some function =>
    have moved : (state.shift front).function = some ((function.toNat : Int) + front.length) := by
      simp [LexerState.shift, reading]
    rw [declareParameter_run text type reading, declareParameter_run text type moved, table_shift,
      SymbolTable.addParameter_shift]
    cases state.table.addParameter function text type <;> rfl
  | none =>
    have moved : (state.shift front).function = none := by
      simp [LexerState.shift, reading]
    -- The name is declared all the same before the step fails.
    have declared : Moves front (symbols fun table => table.declareParameter text type) state :=
      moves_symbols front (state.table.declare_shift front state.table.here
        (.var { name := text, type, scope := some state.table.here, parameter := true }))
    simp only [declareParameter, Steps.run_bind, Steps.run_get, moved, reading]
    rw [declared]
    cases (symbols fun table => table.declareParameter text type).run state with
    | mk result after => cases result <;> rfl

theorem moves_name (text : Text) : Moves front (name text) state := by
  have inParams : (state.shift front).inParams = state.inParams := rfl
  rw [Moves, name_run, name_run, behindType_shift, opening_shift, typeBefore_shift, inParams]
  repeat' split
  · exact moves_resolve front text
  · exact moves_symbols front (state.table.declare_shift front state.table.here
      (.var { name := text, type := state.typeBefore, scope := some state.table.here }))
  · exact moves_declareFunction front text state.typeBefore
  · exact moves_declareParameter front text state.typeBefore
  · exact moves_resolve front text

theorem structureWord_shift (category : Category) :
    (structureWord category).run (state.shift front) =
      Prod.map (fun result => result) (LexerState.shift front) ((structureWord category).run state) := by
  have inFunction : (state.shift front).function.isSome = state.function.isSome := by
    simp [LexerState.shift]
  have depth : (state.shift front).depth = state.depth := rfl
  rw [structureWord_run, structureWord_run, table_shift, SymbolTable.scopeName_shift, inFunction,
    depth, SymbolTable.push_shift, pop_run, pop_run, table_shift, SymbolTable.pop_shift]
  -- No choice depends on a handle, so both sides take the same branch.
  refine ite_natural rfl (ite_natural (ite_natural ?_ rfl) (ite_natural rfl (ite_natural
    (ite_natural rfl rfl) (ite_natural (ite_natural (ite_natural ?_ rfl) rfl) rfl))))
  all_goals cases state.table.pop <;> rfl

/-- Literals are entered without regard to symbols. -/
theorem intern_shift (text : Text) (isCharacter : Bool) :
    (intern text isCharacter).run (state.shift front) =
      Prod.map (fun result => result) (LexerState.shift front)
        ((intern text isCharacter).run state) := by
  have same : (state.shift front).environment.constants = state.environment.constants := rfl
  rw [intern_run, intern_run, same]
  cases state.environment.constants.intern text isCharacter <;> rfl

end Lex

/-! Pieces. -/

section Pieces

variable (front : List Entry) {state : LexerState} {token : Token}

theorem finish_name (isName : token.category = identifier) (absent : token.handle = Handle.absent)
    (result : Except Failure Handle) :
    finish token (result.map (Handle.shift front.length)) (state.shift front) =
      Prod.map (PieceOutcome.map (Token.shift front.length)) (LexerState.shift front)
        (finish token result state) := by
  -- A name that could not be resolved refers to nothing, before and behind the move.
  have unresolved : token.shift front.length = token := by
    rw [Token.shift, if_pos isName, absent, Handle.shift_absent, ← absent]
  cases result with
  | ok handle =>
    have resolved : { token with handle := handle.shift front.length } =
        Token.shift front.length { token with handle } := by
      rw [Token.shift, if_pos isName]
    simp only [finish, Except.map, resolved, remember_shift]
    rfl
  | error failure =>
    cases failure with
    | fault cause => rfl
    | diagnostic error | tree problem | endless =>
      simp only [finish, Except.map, Prod.map, PieceOutcome.map, ← remember_shift, unresolved]

theorem finish_other (notName : token.category ≠ identifier) (result : Except Failure Handle) :
    finish token result (state.shift front) =
      Prod.map (PieceOutcome.map (Token.shift front.length)) (LexerState.shift front)
        (finish token result state) := by
  have same : ∀ handle, Token.shift front.length { token with handle } = { token with handle } := by
    intro handle
    rw [Token.shift, if_neg notName]
  have unresolved : token.shift front.length = token := same token.handle
  cases result with
  | ok handle => simp only [finish, Prod.map, PieceOutcome.map, ← remember_shift, same]
  | error failure =>
    cases failure with
    | fault cause => rfl
    | diagnostic error | tree problem | endless =>
      simp only [finish, Prod.map, PieceOutcome.map, ← remember_shift, unresolved]

theorem literal_shift (notName : token.category ≠ identifier) (text : Text) (isCharacter : Bool) :
    literal token text isCharacter (state.shift front) =
      Prod.map (PieceOutcome.map (Token.shift front.length)) (LexerState.shift front)
        (literal token text isCharacter state) := by
  rw [literal, literal, Lex.intern_shift]
  generalize (Lex.intern text isCharacter).run state = outcome
  obtain ⟨result, after⟩ := outcome
  cases result with
  | ok handle => exact finish_other front notName _
  | error failure =>
    cases failure with
    | diagnostic error => rfl
    | fault cause | tree problem | endless => exact finish_other front notName _

/-- What a word does to the scopes, with the handle of a token that refers to nothing. -/
def structured (category : Category) : Lex Handle := do
  Lex.structureWord category
  return Handle.absent

theorem structured_run (category : Category) :
    (structured category).run state =
      Prod.map (Except.map fun _ => Handle.absent) (fun after => after)
        ((Lex.structureWord category).run state) := by
  rw [structured, Steps.run_bind]
  generalize (Lex.structureWord category).run state = outcome
  obtain ⟨result, after⟩ := outcome
  cases result <;> rfl

theorem structured_shift (absent : token.handle = Handle.absent) (category : Category) :
    finish token ((structured category).run (state.shift front)).1
        ((structured category).run (state.shift front)).2 =
      Prod.map (PieceOutcome.map (Token.shift front.length)) (LexerState.shift front)
        (finish token ((structured category).run state).1 ((structured category).run state).2) := by
  rw [structured_run, structured_run, Lex.structureWord_shift]
  generalize (Lex.structureWord category).run state = outcome
  obtain ⟨result, after⟩ := outcome
  -- The category is any number here, and a token of the one for names is finished as a name.
  by_cases isName : token.category = identifier
  · have finished : finish token ((result.map fun _ => Handle.absent).map
        (Handle.shift front.length)) (after.shift front) = _ := finish_name front isName absent _
    cases result <;> exact finished
  · exact finish_other front isName _

theorem interpret_shift (piece : Piece WordKind) :
    interpret piece (state.shift front) =
      Prod.map (PieceOutcome.map (Token.shift front.length)) (LexerState.shift front)
        (interpret piece state) := by
  obtain ⟨start, text, kind⟩ := piece
  cases kind with
  | none => rfl
  | some kind =>
    cases kind with
    | blank => rfl
    | name =>
      simp only [interpret]
      rw [Lex.moves_name front text]
      exact finish_name front rfl rfl _
    | number | character => exact literal_shift front (show constant ≠ identifier by decide) _ _
    | fixed category =>
      simp only [interpret]
      by_cases isTruth : (category = trueWord || category = falseWord) = true
      · -- A truth value is entered as a literal, and its errors are those of any token.
        have notName : category ≠ identifier := by
          rintro rfl
          cases isTruth
        simp only [if_pos isTruth]
        rw [Lex.intern_shift]
        exact finish_other front notName _
      · simp only [if_neg isTruth]
        exact structured_shift front rfl category

theorem readPieces_shift (last : Token) (errors : List Diagnostic) (pieces : List (Piece WordKind))
    (state : LexerState) :
    readPieces interpret (last.shift front.length) errors pieces (state.shift front) =
      Prod.map (List.map (Reading.map (Token.shift front.length))) (LexerState.shift front)
        (readPieces interpret last errors pieces state) := by
  induction pieces generalizing errors state with
  | nil => rfl
  | cons piece rest ih =>
    rw [readPieces, readPieces, interpret_shift front piece]
    generalize interpret piece state = outcome
    obtain ⟨outcome, after⟩ := outcome
    -- Only a token can differ, and what is read behind the piece goes on from the moved state.
    cases outcome with
    | skipped => exact ih errors after
    | rejected error => exact ih (errors ++ [error]) after
    | fault cause => rfl
    | token token more =>
      have others := ih [] after
      simp only [Prod.map, PieceOutcome.map] at others ⊢
      rw [others]
      rfl

theorem lexFrom_shift (environment : Environment) (text : Text) :
    lexFrom (environment.shift front) text =
      Prod.map (TokenSource.map (Token.shift front.length)) (LexerState.shift front)
        (lexFrom environment text) := by
  have read := readPieces_shift front (Token.atEnd text.length) [] (lexicon.pieces text)
    { environment }
  have ending : (Token.atEnd text.length).shift front.length = Token.atEnd text.length := by
    rw [Token.shift, if_neg]
    exact (by decide : Category.endOfInput ≠ identifier)
  rw [ending] at read
  have opened : ({ environment := environment.shift front } : LexerState) =
      LexerState.shift front { environment } := rfl
  simp [lexFrom, opened, read, Prod.map, TokenSource.map, ending]

end Pieces

end Language

end ThreeAddress

import ThreeAddress.Proofs.Lexicon.Matching
import ThreeAddress.Proofs.Steps
import ThreeAddress.Proofs.Symbols.Table

/-!
What reading one word does.

Each word that becomes a token changes the state in one of a few ways, and a state that is safe never leads to a fault.
-/

namespace ThreeAddress

namespace Language

namespace LexerState

abbrev table (state : LexerState) : SymbolTable := state.environment.symbols

/-- The state with another symbol table. -/
abbrev withTable (state : LexerState) (table : SymbolTable) : LexerState :=
  { state with environment.symbols := table }

/-- The state with another constant table. -/
abbrev withConstants (state : LexerState) (constants : ConstantTable) : LexerState :=
  { state with environment.constants := constants }

end LexerState

namespace Lex

/-- An operation of the symbol table changes the table, or finds an error and changes nothing. -/
theorem symbols_run {α : Type} (operation : SymbolTable → Except Diagnostic (α × SymbolTable))
    (state : LexerState) :
    (symbols operation).run state =
      match operation state.table with
      | .error error => (.error (.diagnostic error), state)
      | .ok (result, table) => (.ok result, state.withTable table) := by
  simp only [symbols, modifySymbols, Steps.run_bind, Steps.run_get]
  cases operation state.table with
  | error error => rfl
  | ok result => rfl

theorem resolve_run (name : Text) (state : LexerState) :
    (resolve name).run state =
      match state.table.resolve name with
      | .error error => (.error (.diagnostic error), state)
      | .ok handle => (.ok handle, state) := by
  rw [resolve, symbols_run]
  cases state.table.resolve name with
  | error error => simp [bind, Except.bind]
  | ok handle => simp [bind, Except.bind, pure, Except.pure]

/-- Entering a literal changes the constant table, or finds an error and changes nothing. -/
theorem intern_run (text : Text) (isCharacter : Bool) (state : LexerState) :
    (intern text isCharacter).run state =
      match state.environment.constants.intern text isCharacter with
      | .error error => (.error (.diagnostic error), state)
      | .ok (handle, constants) => (.ok handle, state.withConstants constants) := by
  simp only [intern, Steps.run_bind, Steps.run_get]
  cases state.environment.constants.intern text isCharacter with
  | error error => rfl
  | ok result => rfl

/-- Closing a scope changes the symbol table, unless only the global scope is open. -/
theorem pop_run (state : LexerState) :
    pop.run state =
      match state.table.pop with
      | .error cause => (.error (.fault cause), state)
      | .ok (_, table) => (.ok (), state.withTable table) := by
  simp only [pop, modifySymbols, Steps.run_bind, Steps.run_get]
  cases state.table.pop with
  | error error => rfl
  | ok result => rfl

/-- A function is declared with its scope, unless its name is taken. -/
theorem declareFunction_run (name : Text) (returns : ValueType) (state : LexerState) :
    (declareFunction name returns).run state =
      match state.table.declareFunction name returns with
      | .error error => (.error (.diagnostic error), state)
      | .ok (handle, table) => (.ok handle,
          { state.withTable (table.openBody handle name) with
            function := some handle, inParams := true, depth := 0 }) := by
  simp only [declareFunction, modifySymbols, Steps.run_bind, symbols_run]
  cases state.table.declareFunction name returns with
  | error error => rfl
  | ok result => rfl

variable {state : LexerState}

/-- A parameter is declared for the function being read, unless its name is taken. -/
theorem declareParameter_run (name : Text) (type : ValueType) {function : Handle}
    (reading : state.function = some function) :
    (declareParameter name type).run state =
      match state.table.addParameter function name type with
      | .error error => (.error (.diagnostic error), state)
      | .ok (handle, table) => (.ok handle, state.withTable table) := by
  simp only [declareParameter, Steps.run_bind, Steps.run_get, reading, symbols_run]
  cases state.table.addParameter function name type with
  | error error => rfl
  | ok result => rfl

/-- Without a function a parameter leads to a fault, unless its name is taken. -/
theorem declareParameter_idle (name : Text) (type : ValueType) (idle : state.function = none) :
    (declareParameter name type).run state =
      match state.table.declareParameter name type with
      | .error error => (.error (.diagnostic error), state)
      | .ok (_, table) => (.error (.fault .outOfBounds), state.withTable table) := by
  simp only [declareParameter, Steps.run_bind, Steps.run_get, idle, symbols_run]
  cases state.table.declareParameter name type with
  | error error => rfl
  | ok result => rfl

end Lex

namespace LexerState

/-- Whether the last token was a type. -/
def behindType (state : LexerState) : Bool :=
  state.previous.any fun token => isTypeWord token.category

/-- The type that the last token names. -/
def typeBefore (state : LexerState) : ValueType :=
  (state.previous.bind fun token => ValueType.ofName? token.lexeme).getD .untyped

/-- The category of the token before the last. -/
def opening (state : LexerState) : Option Category := state.beforePrevious.map Token.category

end LexerState

theorem Lex.name_run (text : Text) (state : LexerState) :
    (Lex.name text).run state = if state.behindType = false then (Lex.resolve text).run state
      else if state.opening = some variableWord then
        (Lex.symbols fun table => table.declareVariable text state.typeBefore).run state
      else if state.opening = some functionWord then
        (Lex.declareFunction text state.typeBefore).run state
      else if state.inParams then (Lex.declareParameter text state.typeBefore).run state
      else (Lex.resolve text).run state := by
  obtain ⟨environment, previous, beforePrevious, function, inParams, depth⟩ := state
  simp only [Lex.name, Steps.run_bind, Steps.run_get, LexerState.behindType,
    LexerState.typeBefore, LexerState.opening]
  cases previous with
  | none => simp
  | some token =>
    cases typed : isTypeWord token.category with
    | false => simp [typed]
    | true =>
      simp only [typed, Option.any_some, Option.bind_some, if_true, Bool.true_eq_false, if_false]
      repeat' split
      all_goals rfl

/-- What reading a token does to the state. -/
inductive Step (state : LexerState) : Token → LexerState → Prop where
  /-- A word that changes nothing. -/
  | plain {token : Token} (notName : token.category ≠ identifier)
      (notLiteral : token.category ≠ constant ∧ token.category ≠ trueWord ∧
        token.category ≠ falseWord)
      (notStart : token.category ≠ startWord)
      (notEnd : token.category = endWord → state.table.scopeName ≠ mainScope)
      (notParen : token.category ≠ closeParen)
      (notBrace : token.category = openBrace ∨ token.category = closeBrace →
        state.function = none) :
      Step state token (state.remember token)
  | literal {token : Token} {text : Text} {isCharacter : Bool} {constants : ConstantTable}
      (category : token.category = constant ∨ token.category = trueWord ∨
        token.category = falseWord)
      (interned : state.environment.constants.intern text isCharacter =
        .ok (token.handle, constants)) :
      Step state token ((state.withConstants constants).remember token)
  | resolved {token : Token} (category : token.category = identifier)
      (free : state.behindType = true → state.opening ≠ some variableWord ∧
        state.opening ≠ some functionWord ∧ state.inParams = false)
      (found : state.table.resolve token.lexeme = .ok token.handle) :
      Step state token (state.remember token)
  | newVariable {token : Token} {table : SymbolTable} (category : token.category = identifier)
      (typed : state.behindType = true) (opened : state.opening = some variableWord)
      (declared : state.table.declareVariable token.lexeme state.typeBefore =
        .ok (token.handle, table)) :
      Step state token ((state.withTable table).remember token)
  | newFunction {token : Token} {table : SymbolTable} (category : token.category = identifier)
      (typed : state.behindType = true) (opened : state.opening = some functionWord)
      (declared : state.table.declareFunction token.lexeme state.typeBefore =
        .ok (token.handle, table)) :
      Step state token (LexerState.remember
        { state.withTable (table.openBody token.handle token.lexeme) with
          function := some token.handle, inParams := true, depth := 0 } token)
  | newParameter {token : Token} {function : Handle} {table : SymbolTable}
      (category : token.category = identifier) (typed : state.behindType = true)
      (notVariable : state.opening ≠ some variableWord)
      (notFunction : state.opening ≠ some functionWord) (header : state.inParams = true)
      (reading : state.function = some function)
      (declared : state.table.addParameter function token.lexeme state.typeBefore =
        .ok (token.handle, table)) :
      Step state token ((state.withTable table).remember token)
  | start {token : Token} (category : token.category = startWord) :
      Step state token ((state.withTable (state.table.push mainScope)).remember token)
  | stop {token : Token} {scope : Nat} {table : SymbolTable} (category : token.category = endWord)
      (inMain : state.table.scopeName = mainScope) (popped : state.table.pop = .ok (scope, table)) :
      Step state token ((state.withTable table).remember token)
  | closeParen {token : Token} (category : token.category = closeParen) :
      Step state token (LexerState.remember { state with inParams := false } token)
  | openBrace {token : Token} (category : token.category = openBrace)
      (inFunction : state.function.isSome = true) :
      Step state token (LexerState.remember { state with depth := state.depth + 1 } token)
  | closeBrace {token : Token} (category : token.category = closeBrace)
      (inFunction : state.function.isSome = true) (inner : state.depth ≠ 1) :
      Step state token (LexerState.remember { state with depth := state.depth - 1 } token)
  | endFunction {token : Token} {scope : Nat} {table : SymbolTable}
      (category : token.category = closeBrace)
      (inFunction : state.function.isSome = true) (outermost : state.depth = 1)
      (popped : state.table.pop = .ok (scope, table)) :
      Step state token (LexerState.remember
        { state.withTable table with function := none, depth := state.depth - 1 } token)

/-- A keyword or a mark opens or closes a scope, or moves the marks that the state keeps. -/
theorem Lex.structureWord_run (category : Category) (state : LexerState) :
    (Lex.structureWord category).run state =
      if category = startWord then (.ok (), state.withTable (state.table.push mainScope))
      else if category = endWord then
        if state.table.scopeName = mainScope then Lex.pop.run state else (.ok (), state)
      else if category = closeParen then (.ok (), { state with inParams := false })
      else if category = openBrace then
        if state.function.isSome then (.ok (), { state with depth := state.depth + 1 })
        else (.ok (), state)
      else if category = closeBrace then
        if state.function.isSome then
          if state.depth = 1 then
            match state.table.pop with
            | .error cause => (.error (.fault cause), { state with depth := state.depth - 1 })
            | .ok (_, table) => (.ok (),
                { state.withTable table with function := none, depth := state.depth - 1 })
          else (.ok (), { state with depth := state.depth - 1 })
        else (.ok (), state)
      else (.ok (), state) := by
  simp only [Lex.structureWord, Steps.run_bind, Steps.run_get]
  split
  · rfl
  split
  · split <;> rfl
  split
  · rfl
  split
  · split <;> rfl
  split
  · split
    · simp only [Steps.run_bind, Steps.run_set]
      split
      · simp only [Steps.run_bind, Lex.pop_run]
        cases state.table.pop with
        | error cause => rfl
        | ok popped => rfl
      · rfl
    · rfl
  · rfl

variable {after state : LexerState} {token : Token} {text : Text}

/-- A state in which a scope is open for every word that closes one. -/
structure LexerState.Closable (state : LexerState) : Prop where
  main : state.table.scopeName = mainScope → ∃ popped, state.table.pop = .ok popped
  body : state.function.isSome = true → state.depth = 1 → ∃ popped, state.table.pop = .ok popped

/-- A state in which no word leads to a fault. -/
structure LexerState.Safe (state : LexerState) : Prop extends state.Closable where
  header : state.inParams = true → state.function.isSome = true

/-- Every keyword and every mark is read by a step where scopes are open for it. -/
theorem structureWord_reads (closable : state.Closable) (notName : token.category ≠ identifier)
    (notLiteral : token.category ≠ constant ∧ token.category ≠ trueWord ∧
      token.category ≠ falseWord) :
    ∃ after, (Lex.structureWord token.category).run state = (.ok (), after) ∧
      Step state token (after.remember token) := by
  rw [Lex.structureWord_run]
  split
  · rename_i isStart
    exact ⟨_, rfl, .start isStart⟩
  rename_i notStart
  split
  · rename_i isEnd
    split
    · rename_i inMain
      obtain ⟨popped, found⟩ := closable.main inMain
      rw [Lex.pop_run, found]
      exact ⟨_, rfl, .stop isEnd inMain found⟩
    · rename_i notMain
      exact ⟨_, rfl, .plain notName notLiteral notStart (fun _ => notMain)
        (by simp [isEnd, endWord, closeParen])
        (by simp [isEnd, endWord, openBrace, closeBrace])⟩
  rename_i notEnd
  split
  · rename_i isParen
    exact ⟨_, rfl, .closeParen isParen⟩
  rename_i notParen
  -- Any other word is plain, unless it is a brace in a function.
  have plain := @Step.plain state token notName notLiteral notStart (fun same => absurd same notEnd) notParen
  split
  · rename_i isOpen
    split
    · rename_i inFunction
      exact ⟨_, rfl, .openBrace isOpen inFunction⟩
    · rename_i outside
      exact ⟨_, rfl, plain fun _ => by simpa using outside⟩
  rename_i notOpen
  split
  · rename_i isClose
    split
    · rename_i inFunction
      split
      · rename_i outermost
        obtain ⟨popped, found⟩ := closable.body inFunction outermost
        rw [found]
        exact ⟨_, rfl, .endFunction isClose inFunction outermost found⟩
      · rename_i inner
        exact ⟨_, rfl, .closeBrace isClose inFunction inner⟩
    · rename_i outside
      exact ⟨_, rfl, plain fun _ => by simpa using outside⟩
  · rename_i notClose
    exact ⟨_, rfl, plain fun same => absurd same (by simp [notOpen, notClose])⟩

/-- A name that would be a parameter and is new in its scope, while no function is being read. -/
structure LexerState.Stray (state : LexerState) (name : Text) : Prop where
  typed : state.behindType = true
  notVariable : state.opening ≠ some variableWord
  notFunction : state.opening ≠ some functionWord
  header : state.inParams = true
  idle : state.function = none
  fresh : state.table.scopes.lookup? state.table.here name = none

theorem LexerState.Safe.not_stray (safe : state.Safe) {name : Text} : ¬ state.Stray name := by
  intro stray
  have reading := safe.header stray.header
  rw [stray.idle] at reading
  cases reading

/-- Whether a kind of words is numbered as those of the language are. -/
def WordKind.isNumbered : WordKind → Bool
  | fixed category => decide (3 ≤ category)
  | _ => true

theorem isNumbered_of_mem {piece : Piece WordKind} (member : piece ∈ lexicon.pieces text) :
    piece.kind.all WordKind.isNumbered = true := by
  have numbered : ∀ rule ∈ lexicalRules, rule.2.isNumbered = true := by decide
  cases found : piece.kind with
  | none => rfl
  | some kind =>
    obtain ⟨rule, listed, rfl, -⟩ := Lexicon.accepts_of_mem_pieces member found
    exact numbered rule listed

/-- What reading a name comes to: a step, an error, which changes nothing, or a fault at a stray name. -/
def NameRead (token : Token) (state : LexerState) : Except Failure Handle × LexerState → Prop
  | (.ok handle, after) => Step state { token with handle } (after.remember { token with handle })
  | (.error failure, after) => (∃ error, failure = .diagnostic error ∧ after = state) ∨
      failure = .fault .outOfBounds ∧ state.Stray token.lexeme

theorem name_read (category : token.category = identifier) (state : LexerState) :
    NameRead token state ((Lex.name token.lexeme).run state) := by
  have looked (free : state.behindType = true → state.opening ≠ some variableWord ∧
      state.opening ≠ some functionWord ∧ state.inParams = false) :
      NameRead token state ((Lex.resolve token.lexeme).run state) := by
    rw [Lex.resolve_run]
    cases found : state.table.resolve token.lexeme with
    | error error => exact .inl ⟨_, rfl, rfl⟩
    | ok handle => exact .resolved category free found
  rw [Lex.name_run]
  split
  · rename_i untyped
    exact looked (by simp [untyped])
  rename_i typed
  simp only [Bool.not_eq_false] at typed
  split
  · rename_i opened
    rw [Lex.symbols_run]
    cases declared : state.table.declareVariable token.lexeme state.typeBefore with
    | error error => exact .inl ⟨_, rfl, rfl⟩
    | ok result => exact .newVariable category typed opened declared
  rename_i notVariable
  split
  · rename_i opened
    rw [Lex.declareFunction_run]
    cases declared : state.table.declareFunction token.lexeme state.typeBefore with
    | error error => exact .inl ⟨_, rfl, rfl⟩
    | ok result => exact .newFunction category typed opened declared
  rename_i notFunction
  split
  · rename_i header
    cases reading : state.function with
    | none =>
      rw [Lex.declareParameter_idle _ _ reading]
      cases declared : state.table.declareParameter token.lexeme state.typeBefore with
      | error error => exact .inl ⟨_, rfl, rfl⟩
      | ok result =>
        exact .inr ⟨rfl, typed, notVariable, notFunction, header, reading,
          SymbolTable.declare_fresh declared⟩
    | some function =>
      rw [Lex.declareParameter_run _ _ reading]
      cases declared : state.table.addParameter function token.lexeme state.typeBefore with
      | error error => exact .inl ⟨_, rfl, rfl⟩
      | ok result =>
        exact .newParameter category typed notVariable notFunction header reading declared
  · rename_i body
    exact looked fun _ => ⟨notVariable, notFunction, by simpa using body⟩

theorem name_of_stray (stray : state.Stray text) :
    ∃ after, (Lex.name text).run state = (.error (.fault .outOfBounds), after) := by
  have declared : ∃ result, state.table.declareParameter text state.typeBefore = .ok result :=
    ⟨_, if_neg (by simp [Entry.name, stray.fresh])⟩
  obtain ⟨⟨handle, table⟩, made⟩ := declared
  refine ⟨state.withTable table, ?_⟩
  rw [Lex.name_run, if_neg (by simp [stray.typed]), if_neg stray.notVariable,
    if_neg stray.notFunction, if_pos stray.header, Lex.declareParameter_idle _ _ stray.idle, made]

/-- What becomes of a piece where scopes can be closed. -/
inductive Outcome (piece : Piece WordKind) (state : LexerState) :
    PieceOutcome × LexerState → Prop where
  | skipped : Outcome piece state (.skipped, state)
  | rejected (error : Diagnostic) : Outcome piece state (.rejected error, state)
  /-- An error leaves a token without a handle, and the state as it is. -/
  | flawed {token : Token} (error : Diagnostic) (absent : token.handle = Handle.absent)
      (category : token.category = identifier ∨ token.category = trueWord ∨
        token.category = falseWord) :
      Outcome piece state (.token token [error], state.remember token)
  | read {token : Token} {after : LexerState} (step : Step state token after)
      (more : token.isEnd = false)
      (named : token.category = identifier → piece.kind = some .name ∧ token.lexeme = piece.text) :
      Outcome piece state (.token token [], after)
  | stray {after : LexerState} (kind : piece.kind = some .name) (stray : state.Stray piece.text) :
      Outcome piece state (.fault .outOfBounds, after)

section Outcome

variable {piece : Piece WordKind} {token : Token} {state : LexerState}

theorem literal_outcome (text : Text) (isCharacter : Bool)
    (category : token.category = constant) :
    Outcome piece state (literal token text isCharacter state) := by
  rw [literal, Lex.intern_run]
  cases interned : state.environment.constants.intern text isCharacter with
  | error error => exact .rejected error
  | ok result =>
    refine .read (.literal (.inl category) interned) (by simp [Token.isEnd, category]; decide) ?_
    simp [category, identifier, constant]

theorem name_outcome (kind : piece.kind = some .name) (lexeme : token.lexeme = piece.text)
    (category : token.category = identifier) (absent : token.handle = Handle.absent) :
    Outcome piece state (finish token ((Lex.name token.lexeme).run state).1
      ((Lex.name token.lexeme).run state).2) := by
  have read := name_read category state
  generalize (Lex.name token.lexeme).run state = result at read ⊢
  rcases result with ⟨failure | handle, after⟩
  · rcases read with ⟨error, rfl, rfl⟩ | ⟨rfl, stray⟩
    · exact .flawed error absent (.inl category)
    · exact .stray kind (lexeme ▸ stray)
  · exact .read read (by simp [Token.isEnd, category]; decide) fun _ => ⟨kind, lexeme⟩

theorem fixed_outcome {action : Lex Handle}
    (acts : action = if token.category = trueWord || token.category = falseWord then
        Lex.intern token.lexeme false
      else do
        Lex.structureWord token.category
        return Handle.absent)
    (closable : state.Closable) (numbered : 3 ≤ token.category)
    (absent : token.handle = Handle.absent) :
    Outcome piece state (finish token (action.run state).1 (action.run state).2) := by
  subst acts
  have more : token.isEnd = false := by
    simp only [Token.isEnd, Category.endOfInput, Category, beq_eq_false_iff_ne] at *
    omega
  have low : token.category ≠ identifier ∧ token.category ≠ constant := by
    simp only [identifier, constant, Category] at *
    omega
  split
  · rename_i truth
    simp only [Bool.or_eq_true, decide_eq_true_eq] at truth
    rw [Lex.intern_run]
    cases interned : state.environment.constants.intern token.lexeme false with
    | error error => exact .flawed error absent (.inr truth)
    | ok result =>
      exact .read (.literal (.inr truth) interned) more fun isName => absurd isName low.1
  · rename_i notTruth
    simp only [Bool.or_eq_true, decide_eq_true_eq, not_or] at notTruth
    obtain ⟨after, run, step⟩ := structureWord_reads closable low.1 ⟨low.2, notTruth⟩
    simp only [Steps.run_bind, run, Steps.run_pure]
    have same : { token with handle := Handle.absent } = token := by rw [← absent]
    simp only [finish, same]
    exact .read step more fun isName => absurd isName low.1

/-- Where scopes can be closed, no piece leads to a fault but a stray name. -/
theorem interpret_outcome (numbered : piece.kind.all WordKind.isNumbered = true)
    (closable : state.Closable) : Outcome piece state (interpret piece state) := by
  unfold interpret
  split
  · exact .rejected _
  · exact .skipped
  · exact name_outcome ‹_› rfl rfl rfl
  · exact literal_outcome _ _ rfl
  · exact literal_outcome _ _ rfl
  · rename_i category kind
    have least : 3 ≤ category := by simpa [kind, WordKind.isNumbered] using numbered
    exact fixed_outcome rfl closable least rfl

end Outcome

end Language

end ThreeAddress

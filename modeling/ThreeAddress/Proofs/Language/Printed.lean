import ThreeAddress.Proofs.Source.Assignment
import ThreeAddress.Proofs.Symbols.Constants

/-!
Reading what is written.

The words of declarations enter variables in the order in which they stand, and the words of an expression become a phrase.
Blanks may stand between any two words.
-/

namespace ThreeAddress

open List

namespace Language

open Source

/-- Pieces that are read without an error, one after the other. -/
inductive Lexes : LexerState → List (Piece WordKind) → List Token → LexerState → Prop where
  | nil {state : LexerState} : Lexes state [] [] state
  | blank {state after : LexerState} {piece : Piece WordKind} {pieces : List (Piece WordKind)}
    {tokens : List Token} (isBlank : piece.kind = some .blank)
    (rest : Lexes state pieces tokens after) : Lexes state (piece :: pieces) tokens after
  | token {state middle after : LexerState} {piece : Piece WordKind}
    {pieces : List (Piece WordKind)} {token : Token} {tokens : List Token}
    (reads : interpret piece state = (.token token [], middle))
    (rest : Lexes middle pieces tokens after) :
    Lexes state (piece :: pieces) (token :: tokens) after

variable {state : LexerState} {tokens : List Token} {after : LexerState}

theorem Lexes.append {middle : LexerState} {front back : List (Piece WordKind)}
    {others : List Token} (first : Lexes state front tokens middle)
    (second : Lexes middle back others after) :
    Lexes state (front ++ back) (tokens ++ others) after := by
  induction first with
  | nil => exact second
  | blank isBlank _ ih => exact .blank isBlank (ih second)
  | token reads _ ih => exact .token reads (ih second)

variable {pieces : List (Piece WordKind)}

/-- What is read without an error is delivered as it is, and then the end of the text. -/
theorem Lexes.readPieces (lexes : Lexes state pieces tokens after) (last : Token) :
    readPieces interpret last [] pieces state =
      ((tokens ++ [last]).map fun token => { outcome := .ok token }, after) := by
  induction lexes with
  | nil => rfl
  | @blank state after piece pieces tokens isBlank _ ih =>
    have skips : interpret piece state = (.skipped, state) := by simp [interpret, isBlank]
    rw [ThreeAddress.readPieces, skips]
    exact ih
  | token reads _ ih =>
    rw [ThreeAddress.readPieces, reads]
    simp [ih]

theorem Lexes.trace (lexes : Lexes state pieces tokens after)
    : (trace pieces state).map Prod.fst = tokens := by
  induction lexes with
  | nil => rfl
  | blank isBlank _ ih => simpa [Language.trace, interpret, isBlank] using ih
  | token reads _ ih => simp [Language.trace, reads, ih]

/-- Words that are read without an error, whatever blanks stand between them. -/
def Lexed (state : LexerState) (written : List Word)
    (spec : List Token → LexerState → Prop) : Prop :=
  ∀ pieces, wordsOf pieces = written →
    ∃ tokens after, Lexes state pieces tokens after ∧ spec tokens after

section Lexed

variable {state : LexerState} {written others : List Word}
  {spec weaker : List Token → LexerState → Prop}

theorem Lexed.mono (lexed : Lexed state written spec)
    (implies : ∀ tokens after, spec tokens after → weaker tokens after) :
    Lexed state written weaker := by
  intro pieces same
  obtain ⟨tokens, after, lexes, holds⟩ := lexed pieces same
  exact ⟨tokens, after, lexes, implies tokens after holds⟩

/-- Where there are no words only blanks are left. -/
theorem lexed_nil (holds : spec [] state) : Lexed state [] spec := by
  intro pieces
  induction pieces with
  | nil => exact fun _ => ⟨[], state, .nil, holds⟩
  | cons piece rest ih =>
    intro none
    by_cases isBlank : piece.kind = some .blank
    · obtain ⟨tokens, after, lexes, held⟩ := ih (by simpa [wordsOf, isBlank] using none)
      exact ⟨tokens, after, .blank isBlank lexes, held⟩
    · simp [wordsOf, isBlank] at none

theorem Lexed.andThen {middle : List Token → LexerState → Prop} (first : Lexed state written middle)
    (next : ∀ tokens between, middle tokens between →
      Lexed between others fun more after => spec (tokens ++ more) after) :
    Lexed state (written ++ others) spec := by
  intro pieces same
  -- The words come from pieces in the same order, so the pieces are split where the words are.
  obtain ⟨kept, behind, split, rfl, rfl⟩ := map_eq_append_iff.mp same
  obtain ⟨front, back, rfl, rfl, rfl⟩ := filter_eq_append_iff.mp split
  obtain ⟨tokens, between, lexes, holds⟩ := first front rfl
  obtain ⟨more, after, further, held⟩ := next tokens between holds back rfl
  exact ⟨tokens ++ more, after, lexes.append further, held⟩

def ReadsWord (state : LexerState) (word : Word) (spec : Token → LexerState → Prop) : Prop :=
  ∀ piece : Piece WordKind, piece.text = word.1 → piece.kind = word.2 →
    ∃ token after, interpret piece state = (.token token [], after) ∧ spec token after

theorem ReadsWord.andThen {word : Word} {middle : Token → LexerState → Prop}
    (reads : ReadsWord state word middle)
    (next : ∀ token between, middle token between →
      Lexed between others fun more after => spec (token :: more) after) :
    Lexed state (word :: others) spec := by
  intro pieces
  induction pieces with
  | nil => simp [wordsOf]
  | cons piece rest ih =>
    intro same
    by_cases isBlank : piece.kind = some .blank
    · obtain ⟨tokens, after, lexes, held⟩ := ih (by simpa [wordsOf, isBlank] using same)
      exact ⟨tokens, after, .blank isBlank lexes, held⟩
    · obtain ⟨here, behind⟩ : (piece.text, piece.kind) = word ∧ wordsOf rest = others := by
        simpa [wordsOf, isBlank] using same
      obtain ⟨token, between, interpreted, holds⟩ :=
        reads piece (congrArg Prod.fst here) (congrArg Prod.snd here)
      obtain ⟨tokens, after, lexes, held⟩ := next token between holds rest behind
      exact ⟨token :: tokens, after, .token interpreted lexes, held⟩

end Lexed

/-- The symbol table in a main block that has declared some variables. -/
def mainTable (declared : List (Text × ValueType)) : SymbolTable where
  entries := declared.map fun entry => .var { name := entry.1, type := entry.2, scope := some 1 }
  scopes := {
    scopes := [{ name := SymbolTable.globalScope },
      { name := mainScope, enclosing := [0],
        bindings := (declared.map Prod.fst).zipIdx.map fun entry => (entry.1, entry.2) }]
    path := [1, 0] }

theorem lookup_names (names : List Text) (name : Text) : ∀ first : Nat,
    ((names.zipIdx first).map fun entry => (entry.1, (entry.2 : Handle))).lookup name =
      if name ∈ names then some ((first + names.idxOf name : Nat) : Handle) else none := by
  induction names with
  | nil => simp
  | cons other names ih =>
    intro first
    rw [zipIdx_cons, map_cons, lookup_cons]
    by_cases same : name = other
    · subst same
      simp
    · have apart : (name == other) = false := beq_eq_false_iff_ne.mpr same
      simp only [apart, ih, mem_cons, same, false_or]
      rw [idxOf_cons_ne _ (Ne.symm same)]
      split
      · congr 2
        omega
      · rfl

variable {name : Text} {type : ValueType}

variable {declared : List (Text × ValueType)}

theorem declareVariable_main (new : name ∉ declared.map Prod.fst) (type : ValueType) :
    (mainTable declared).declareVariable name type =
      .ok ((declared.length : Nat), mainTable (declared ++ [(name, type)])) := by
  -- Only the scope of the block counts, and it does not bind the name yet.
  have unbound : (mainTable declared).scopes.lookup? 1 name = none := by
    have none := lookup_names (declared.map Prod.fst) name 0
    rw [if_neg new] at none
    exact none
  have here : (mainTable declared).here = 1 := rfl
  rw [SymbolTable.declareVariable, SymbolTable.declare, here]
  simp only [Entry.name, unbound, Option.isSome_none, Bool.false_eq_true, if_false]
  simp [SymbolTable.append, SymbolTable.size, mainTable, ScopeTree.define, List.modify,
    zipIdx_append, Scope.define]

theorem resolve_main (declared : Declarations) (known : name ∈ declared.entries.map Prod.fst) :
    (mainTable declared.entries).resolve name = .ok (declared.handle name) := by
  have bound : (mainTable declared.entries).scopes.lookup? 1 name =
      some (declared.handle name) := by
    have some := lookup_names (declared.entries.map Prod.fst) name 0
    rw [if_pos known, Nat.zero_add] at some
    exact some
  have found : (mainTable declared.entries).scopes.resolve? 1 name =
      some (declared.handle name, 1) := by
    have scope : (mainTable declared.entries).scopes.scope? 1 = some _ := rfl
    simp only [ScopeTree.resolve?, scope, Option.bind_eq_bind, Option.bind_some,
      findSome?_cons, bound, Option.map_some]
  have here : (mainTable declared.entries).here = 1 := rfl
  rw [SymbolTable.resolve, here, found]

/-- Reading a main block that has declared some variables, not behind a type. -/
structure InMain (declared : List (Text × ValueType)) (state : LexerState) : Prop where
  table : state.table = mainTable declared
  idle : state.function = none
  unlisted : state.inParams = false
  untyped : state.behindType = false
  genuine : state.environment.constants.Genuine

theorem InMain.remember (inMain : InMain declared state) {token : Token}
    (notType : isTypeWord token.category = false) : InMain declared (state.remember token) :=
  { inMain with untyped := by simpa [LexerState.behindType, LexerState.remember] using notType }

/-- The words that open or close scopes, and those that are constants. -/
def structureWords : List Category :=
  [startWord, endWord, openBrace, closeBrace, trueWord, falseWord]

section Words

variable {declared : List (Text × ValueType)} {state : LexerState} {category : Category}

/-- Any other word of one spelling only becomes a token. -/
theorem readsWord_fixed (unlisted : state.inParams = false) (plain : category ∉ structureWords) :
    ReadsWord state (Word.fixed category) fun token after =>
      token.category = category ∧ token.lexeme = registry.nameOf category ∧
        after = state.remember token := by
  intro piece text kind
  simp only [structureWords, mem_cons, not_mem_nil, or_false, not_or] at plain
  obtain ⟨notStart, notEnd, notOpen, notClose, notTrue, notFalse⟩ := plain
  -- A closing parenthesis ends a list of parameters, and there is none.
  have stays : { state with inParams := false } = state := by rw [← unlisted]
  let token : Token := { category, lexeme := piece.text, span := piece.span }
  refine ⟨token, state.remember token, ?_, rfl, text, rfl⟩
  simp only [interpret, kind, Word.fixed, notTrue, notFalse, decide_false, Bool.or_self,
    Bool.false_eq_true, if_false, Steps.run_bind, Lex.structureWord_run, notStart, notEnd,
    notOpen, notClose, stays, ite_self, Steps.run_pure, finish]
  rfl

/-- In the main block such a word changes nothing else, unless it is a type. -/
theorem InMain.readsWord (inMain : InMain declared state) (plain : category ∉ structureWords)
    (notType : isTypeWord category = false) :
    ReadsWord state (Word.fixed category) fun token after => token.category = category ∧
      InMain declared after ∧ after.environment = state.environment := by
  intro piece text kind
  obtain ⟨token, _, reads, is, -, rfl⟩ := readsWord_fixed inMain.unlisted plain piece text kind
  exact ⟨token, _, reads, is, inMain.remember (is ▸ notType), rfl⟩

theorem readsWord_start : ReadsWord { environment := .empty } (Word.fixed startWord)
    fun token after => token.category = startWord ∧ InMain [] after := by
  intro piece text kind
  let token : Token := { category := startWord, lexeme := piece.text, span := piece.span }
  refine ⟨token, LexerState.remember { environment := ⟨mainTable [], .empty⟩ } token, ?_, rfl,
    rfl, rfl, rfl, rfl, ?_⟩
  · simp only [interpret, kind, Word.fixed]
    rfl
  · exact fun constant member => absurd member not_mem_nil

/-- The last word closes the main block, and the entries stay. -/
theorem readsWord_end (inMain : InMain declared state) :
    ReadsWord state (Word.fixed endWord) fun token after => token.category = endWord ∧
      after.table.entries = (mainTable declared).entries ∧
      after.environment.constants = state.environment.constants := by
  intro piece text kind
  let token : Token := { category := endWord, lexeme := piece.text, span := piece.span }
  obtain ⟨table, popped, entries⟩ : ∃ table, state.table.pop = .ok (1, table) ∧
      table.entries = (mainTable declared).entries := by
    rw [inMain.table]
    exact ⟨_, rfl, rfl⟩
  have inside : state.table.scopeName = mainScope := by
    rw [inMain.table]
    rfl
  have notStart : ¬ endWord = startWord := by decide
  have notTruth : ¬ (endWord = trueWord ∨ endWord = falseWord) := by decide
  refine ⟨token, LexerState.remember (state.withTable table) token, ?_, rfl, entries, rfl⟩
  simp only [interpret, kind, Word.fixed, Bool.or_eq_true, decide_eq_true_eq, notTruth, if_false,
    Steps.run_bind, Lex.structureWord_run, notStart, if_true, inside, Lex.pop_run, popped,
    Steps.run_pure, finish]
  rfl

variable {name : Text}

theorem readsWord_name {declared : Declarations} (inMain : InMain declared.entries state)
    (known : name ∈ declared.entries.map Prod.fst) :
    ReadsWord state (name, some .name) fun token after => token.category = identifier ∧
      token.handle = declared.handle name ∧ InMain declared.entries after ∧
      after.environment = state.environment := by
  intro piece text kind
  let token : Token := ⟨identifier, piece.text, declared.handle name, piece.span⟩
  have found : state.table.resolve piece.text = .ok (declared.handle name) := by
    rw [inMain.table, text]
    exact resolve_main declared known
  refine ⟨token, state.remember token, ?_, rfl, rfl, inMain.remember rfl, rfl⟩
  simp only [interpret, kind, Lex.name_run, inMain.untyped, if_true, Lex.resolve_run, found, finish]
  rfl

theorem readsWord_declared (table : state.table = mainTable declared)
    (typed : state.behindType = true) (opened : state.opening = some variableWord)
    (new : name ∉ declared.map Prod.fst) :
    ReadsWord state (name, some .name) fun token after => token.category = identifier ∧
      after = (state.withTable (mainTable (declared ++ [(name, state.typeBefore)]))).remember
        token := by
  intro piece text kind
  let token : Token := ⟨identifier, piece.text, (declared.length : Nat), piece.span⟩
  have declares : state.table.declareVariable piece.text state.typeBefore =
      .ok ((declared.length : Nat), mainTable (declared ++ [(name, state.typeBefore)])) := by
    rw [table, text]
    exact declareVariable_main new state.typeBefore
  refine ⟨token, _, ?_, rfl, rfl⟩
  simp only [interpret, kind, Lex.name_run, typed, Bool.true_eq_false, if_false, opened, if_true,
    Lex.symbols_run, declares, finish]
  rfl

theorem readsWord_literal (inMain : InMain declared state) {spelling : Literal}
    {value : Constant} (made : spelling.read = .ok value) :
    ReadsWord state spelling.word fun token after =>
      Role.ofCategory token.category = .literal ∧ InMain declared after ∧
      state.environment.constants.constants <+: after.environment.constants.constants ∧
      after.environment.constants.lookup? token.handle = some value := by
  intro piece text kind
  -- However it is spelled, a literal is entered and then remembered.
  have entered : ∀ (content : Text) (isCharacter : Bool) (category : Category),
      Constant.ofLiteral content isCharacter = .ok value →
      Role.ofCategory category = .literal →
      (∀ handle constants,
        state.environment.constants.intern content isCharacter = .ok (handle, constants) →
        interpret piece state = finish { category, lexeme := piece.text, span := piece.span }
          (.ok handle) (state.withConstants constants)) →
      ∃ token after, interpret piece state = (.token token [], after) ∧
        Role.ofCategory token.category = .literal ∧ InMain declared after ∧
        state.environment.constants.constants <+: after.environment.constants.constants ∧
        after.environment.constants.lookup? token.handle = some value := by
    intro content isCharacter category makes role interprets
    have converts : LiteralCall.Converts ⟨content, isCharacter⟩ value :=
      LiteralCall.converts_iff.mpr makes
    obtain ⟨handle, constants, interned, found, entered⟩ :=
      ConstantTable.intern_converts inMain.genuine converts
    obtain ⟨grown, genuine⟩ := inMain.genuine.grown converts entered
    have notType : isTypeWord category = false := by
      rcases Role.isLiteral_of_role role with is | is | is <;> rw [is] <;> rfl
    refine ⟨_, _, interprets handle constants interned, role, ?_, grown, found⟩
    have stays : InMain declared (state.withConstants constants) := { inMain with genuine }
    exact stays.remember notType
  cases spelling with
  | number content =>
    refine entered content false constant made rfl fun handle constants interned => ?_
    have same : piece.text = content := text
    have isNumber : piece.kind = some .number := kind
    simp only [interpret, isNumber, literal, same, Lex.intern_run, interned]
  | character content =>
    refine entered content true constant made rfl fun handle constants interned => ?_
    have same : (piece.text.drop 1).dropLast = content := by
      rw [text]
      exact dropLast_concat
    have isCharacter : piece.kind = some .character := kind
    simp only [interpret, isCharacter, literal, same, Lex.intern_run, interned]
  | truth value =>
    refine entered _ false (if value then trueWord else falseWord) made (by cases value <;> rfl)
      fun handle constants interned => ?_
    have same : piece.text = if value then ("true" : Text) else "false" := by
      rw [text]
      cases value <;> rfl
    have isTruth : (if value then trueWord else falseWord) = trueWord ∨
        (if value then trueWord else falseWord) = falseWord := by
      cases value <;> simp
    have isFixed : piece.kind = some (.fixed (if value then trueWord else falseWord)) := kind
    simp only [interpret, isFixed, Bool.or_eq_true, decide_eq_true_eq, isTruth, if_true, same,
      Lex.intern_run, interned]

end Words

/-- Tokens that spell a written expression, and the state behind them. -/
def Spells (declared : Declarations) (before : LexerState) (level : Nat) (written : Written)
    (tokens : List Token) (after : LexerState) : Prop :=
  ∃ expression, Phrase level tokens expression ∧
    Resolves declared after.environment.constants written expression ∧
    InMain declared.entries after ∧
    before.environment.constants.constants <+: after.environment.constants.constants

section Expressions

variable {declared : Declarations} {written : Written}

theorem Spells.weaken {before after : LexerState} {tokens : List Token} {level least : Nat}
    (spells : Spells declared before level written tokens after) (enough : least ≤ level) :
    Spells declared before least written tokens after := by
  obtain ⟨expression, phrase, rest⟩ := spells
  exact ⟨expression, phrase.weaken enough, rest⟩

/-- An expression in parentheses may stand anywhere. -/
theorem lexed_grouped {inner : List Word}
    (lexed : ∀ state, InMain declared.entries state →
      Lexed state inner (Spells declared state 0 written)) :
    ∀ state, InMain declared.entries state →
      Lexed state (Word.grouped inner) (Spells declared state 4 written) := by
  intro state inMain
  refine (inMain.readsWord (by decide : openParen ∉ structureWords) rfl).andThen ?_
  rintro opening opened ⟨opens, inMain, start⟩
  refine (lexed opened inMain).andThen ?_
  -- Neither parenthesis changes the tables.
  rintro tokens middle ⟨expression, phrase, resolves, inMain, grown⟩
  refine (inMain.readsWord (by decide : closeParen ∉ structureWords) rfl).andThen ?_
  rintro closing closed ⟨closes, inMain, same⟩
  refine lexed_nil ⟨expression, .group opens closes phrase, ?_, inMain, ?_⟩
  · rwa [same]
  · rwa [same, ← start]

/-- The words of a well-typed expression become a phrase of the level that was asked for. -/
theorem lexed_written {type : ValueType} (typed : written.HasType declared type) :
    ∀ least ≤ 4, ∀ state, InMain declared.entries state →
      Lexed state (written.words least) (Spells declared state least written) := by
  induction typed with
  | @name text type known =>
    intro least inside state inMain
    refine (readsWord_name inMain (mem_map_of_mem known)).andThen ?_
    rintro token after ⟨category, handle, inMain, same⟩
    refine lexed_nil ⟨_, (Phrase.name category).weaken inside, ?_, inMain, ?_⟩
    · rw [handle]
      exact .name
    · rw [same]
  | @literal spelling constant isWord made =>
    intro least inside state inMain
    refine (readsWord_literal inMain made).andThen ?_
    rintro token after ⟨role, inMain, grown, found⟩
    exact lexed_nil ⟨_, (Phrase.literal role).weaken inside, .literal found, inMain, grown⟩
  | @binary operation left right operand result _ _ _ ihLeft ihRight =>
    have bounds : operation.leftLevel ≤ 4 ∧ operation.rightLevel ≤ 4 := by
      cases operation <;> decide
    have plain : operation.category ∉ structureWords ∧
        isTypeWord operation.category = false := by
      cases operation <;> decide
    -- The operands are read in order, and the operator between them.
    have bare : ∀ state, InMain declared.entries state →
        Lexed state (left.words operation.leftLevel ++
          Word.fixed operation.category :: right.words operation.rightLevel)
          (Spells declared state operation.level (.binary operation left right)) := by
      intro state inMain
      refine (ihLeft _ bounds.1 state inMain).andThen ?_
      rintro before middle ⟨first, ofFirst, resolvesFirst, inMain, grown⟩
      refine (inMain.readsWord plain.1 plain.2).andThen ?_
      rintro operator between ⟨is, inMain, same⟩
      refine (ihRight _ bounds.2 between inMain).mono ?_
      rintro behind after ⟨second, ofSecond, resolvesSecond, inMain, further⟩
      rw [same] at further
      exact ⟨_, .binary is ofFirst ofSecond, .binary (resolvesFirst.later further) resolvesSecond,
        inMain, grown.trans further⟩
    have loose : ∀ state, InMain declared.entries state → Lexed state _
        (Spells declared state 0 (.binary operation left right)) :=
      fun state inMain => (bare state inMain).mono fun _ _ spells => spells.weaken (Nat.zero_le _)
    intro least inside state inMain
    rw [Written.words]
    split
    · rename_i enough
      exact (bare state inMain).mono fun _ _ spells => spells.weaken enough
    · exact (lexed_grouped loose state inMain).mono fun _ _ spells => spells.weaken inside
  | group _ ih =>
    intro least inside state inMain
    refine (lexed_grouped (ih 0 (Nat.zero_le _)) state inMain).mono ?_
    rintro tokens after ⟨expression, phrase, resolves, rest⟩
    exact ⟨expression, phrase.weaken inside, .group resolves, rest⟩

end Expressions

theorem ofName?_category (typed : type ≠ .untyped) :
    ValueType.ofName? (registry.nameOf type.category) = some type ∧
      isTypeWord type.category = true ∧ type.category ∉ structureWords := by
  cases type with
  | untyped => exact absurd rfl typed
  | int | float | char | boolean => decide

theorem lexed_declaration (inMain : InMain declared state) (new : name ∉ declared.map Prod.fst)
    (typed : type ≠ .untyped) :
    Lexed state (declarationWords (name, type)) fun tokens after =>
      IsDeclaration tokens ∧ InMain (declared ++ [(name, type)]) after := by
  obtain ⟨named, isType, plain⟩ := ofName?_category typed
  refine (readsWord_fixed inMain.unlisted (by decide : variableWord ∉ structureWords)).andThen ?_
  rintro word opened ⟨isWord, _, isOpened⟩
  have unlisted : opened.inParams = false := by rw [isOpened]; exact inMain.unlisted
  refine (readsWord_fixed unlisted plain).andThen ?_
  rintro second behind ⟨category, lexeme, isBehind⟩
  -- The window over the last two tokens shows that a variable is declared, and its type.
  have behindType : behind.behindType = true := by
    simpa [isBehind, LexerState.behindType, LexerState.remember, category] using isType
  have opening : behind.opening = some variableWord := by
    simp [isBehind, isOpened, LexerState.opening, LexerState.remember, isWord]
  have typeBefore : behind.typeBefore = type := by
    simp [isBehind, LexerState.typeBefore, LexerState.remember, lexeme, named]
  have table : behind.table = mainTable declared := by
    rw [isBehind, isOpened]
    exact inMain.table
  refine (readsWord_declared table behindType opening new).andThen ?_
  rintro third entered ⟨isName, isEntered⟩
  rw [typeBefore, isBehind, isOpened] at isEntered
  have unlisted : entered.inParams = false := by rw [isEntered]; exact inMain.unlisted
  refine (readsWord_fixed unlisted (by decide : 26 ∉ structureWords)).andThen ?_
  rintro stop final ⟨isStop, _, isFinal⟩
  have declares : IsDeclaration [word, second, third, stop] :=
    ⟨word, second, third, stop, rfl, isWord, category ▸ isType, isName, isStop⟩
  rw [isEntered] at isFinal
  subst isFinal
  refine lexed_nil ⟨declares, rfl, inMain.idle, inMain.unlisted, ?_, inMain.genuine⟩
  simp [LexerState.behindType, LexerState.remember, isStop, isTypeWord]

/-- Declarations of new names enter variables in their order. -/
theorem lexed_declarations {entries : List (Text × ValueType)} :
    ∀ {declared : List (Text × ValueType)} {state : LexerState}, InMain declared state →
      ((declared ++ entries).map Prod.fst).Nodup → (∀ entry ∈ entries, entry.2 ≠ .untyped) →
      Lexed state (entries.flatMap declarationWords) fun tokens after =>
        InMain (declared ++ entries) after ∧ ∃ declarations : List (List Token),
          tokens = declarations.flatten ∧ declarations.length = entries.length ∧
          ∀ tokens ∈ declarations, IsDeclaration tokens := by
  induction entries with
  | nil =>
    intro declared state inMain _ _
    refine lexed_nil ⟨?_, [], rfl, rfl, by simp⟩
    rwa [append_nil]
  | cons entry entries ih =>
    obtain ⟨name, type⟩ := entry
    intro declared state inMain distinct typed
    have new : name ∉ declared.map Prod.fst := by
      simp only [map_append, map_cons, nodup_append, mem_cons] at distinct
      exact fun member => distinct.2.2 name member name (.inl rfl) rfl
    have split : declared ++ (name, type) :: entries = (declared ++ [(name, type)]) ++ entries := by
      simp
    rw [split] at distinct ⊢
    refine (lexed_declaration inMain new (typed _ mem_cons_self)).andThen ?_
    rintro tokens middle ⟨declares, inside⟩
    refine (ih inside distinct (forall_mem_cons.mp typed).2).mono ?_
    rintro _ after ⟨final, declarations, rfl, count, each⟩
    refine ⟨final, tokens :: declarations, rfl, by simp [count], ?_⟩
    intro other member
    rcases mem_cons.mp member with rfl | later
    · exact declares
    · exact each other later

/-- The program that declares variables and assigns an expression to one of them. -/
def assignmentProgram (declared : Declarations) (target : Text) (value : Expression) : Program where
  functions := []
  main := behindDeclarations declared.entries.length
    (.seq (.assign (declared.handle target) value) .skip)

/-- The words of an assignment become the tokens of a derivation, which reads as the assignment of the same expression. -/
theorem lexed_assignment {declared : Declarations} {target : Text} {other : ValueType}
    {value : Written} (known : (target, other) ∈ declared.entries)
    (typed : value.HasType declared type) :
    Lexed { environment := .empty } (assignmentWords declared target value) fun tokens after =>
      ∃ tree expression, standardGrammar.IsDerivation tree ∧
        SyntaxTree.symbol tree = .nonterminal standardGrammar.start ∧
        SyntaxTree.tokens tree = tokens ∧
        (∀ other, other.unnumbered = tree.unnumbered → Program.read? (Compiler.normalize other) =
            some (assignmentProgram declared target expression)) ∧
        Resolves declared after.environment.constants value expression ∧
        after.table.entries = (mainTable declared.entries).entries := by
  refine readsWord_start.andThen ?_
  rintro opener _ ⟨opens, inMain⟩
  refine (lexed_declarations inMain declared.distinct declared.typed).andThen ?_
  rintro _ _ ⟨inMain, declarations, rfl, count, each⟩
  refine (readsWord_name inMain (mem_map_of_mem known)).andThen ?_
  rintro place _ ⟨isPlace, handle, inMain, _⟩
  refine (inMain.readsWord (by decide : 27 ∉ structureWords) rfl).andThen ?_
  rintro mark assigning ⟨isMark, inMain, _⟩
  refine (lexed_written typed 0 (Nat.zero_le _) assigning inMain).andThen ?_
  rintro tokens _ ⟨expression, phrase, resolves, inMain, _⟩
  refine (inMain.readsWord (by decide : 26 ∉ structureWords) rfl).andThen ?_
  rintro stop _ ⟨isStop, inMain, same⟩
  refine (readsWord_end inMain).andThen ?_
  rintro closer final ⟨closes, entries, constants⟩
  -- The tokens are now known, and they have a derivation statement by statement.
  have statements := leaves_declarations each
    (leaves_statement (leaves_assignment isPlace isMark isStop phrase) leaves_noStatement)
  obtain ⟨tree, derivation, start, spelled, read⟩ := mainBlock_derivation opens closes statements
  refine lexed_nil ⟨tree, expression, derivation, start, ?_, ?_, ?_, entries⟩
  · rw [spelled]
    simp
  · intro other same
    rw [read other same, handle, count]
    rfl
  · rwa [constants, same]

end Language

end ThreeAddress

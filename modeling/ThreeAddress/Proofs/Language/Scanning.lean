import ThreeAddress.Proofs.Language.Lexing
import ThreeAddress.Proofs.Language.Modes

/-!
What the words of a program leave in the tables.

Every place in a program has a state of its own, which the words that may follow there lead on to the next.
In a block every name refers to a variable of the block or to a function, and every literal to a constant.
-/

namespace ThreeAddress

open List

/-- What a token of a block refers to. -/
structure Token.KnownIn (scope : Nat) (environment : Environment) (token : Token) : Prop where
  name : token.category = Language.identifier →
    ∃ entry, environment.symbols.lookup? token.handle = some entry ∧
      (entry.BelongsTo scope ∨ entry.BelongsTo 0)
  literal : Language.Role.ofCategory token.category = .literal →
    (environment.constants.lookup? token.handle).isSome = true

theorem Token.KnownIn.later {scope : Nat} {before after : Environment} {token : Token}
    (known : token.KnownIn scope before)
    (entries : before.symbols.entries <+: after.symbols.entries)
    (constants : before.constants.constants <+: after.constants.constants) :
    token.KnownIn scope after where
  name isName := by
    obtain ⟨entry, found, inside⟩ := known.name isName
    exact ⟨entry, SymbolTable.lookup?_of_prefix entries found, inside⟩
  literal isLiteral := by
    obtain ⟨constant, found⟩ := Option.isSome_iff_exists.mp (known.literal isLiteral)
    exact Option.isSome_iff_exists.mpr ⟨constant, ConstantTable.lookup?_of_prefix constants found⟩

namespace Language

/-- Reading tokens one after the other. -/
inductive Scans : LexerState → List Token → LexerState → Prop where
  | nil {state : LexerState} : Scans state [] state
  | cons {state middle after : LexerState} {token : Token} {tokens : List Token}
      (first : Step state token middle) (rest : Scans middle tokens after) :
      Scans state (token :: tokens) after

variable {after state : LexerState} {depth scope : Nat} {before : Environment}

theorem Scans.split {first second : List Token} (scans : Scans state (first ++ second) after) :
    ∃ middle, Scans state first middle ∧ Scans middle second after := by
  induction first generalizing state with
  | nil => exact ⟨state, .nil, scans⟩
  | cons token rest ih =>
    cases scans with
    | cons step others =>
      obtain ⟨middle, left, right⟩ := ih others
      exact ⟨middle, .cons step left, right⟩

variable {tokens : List Token}

theorem Scans.uncons {token : Token} (scans : Scans state (token :: tokens) after) :
    ∃ middle, Step state token middle ∧ Scans middle tokens after := by
  cases scans with
  | cons step rest => exact ⟨_, step, rest⟩

theorem Scans.single {token : Token} (scans : Scans state [token] after) :
    Step state token after := by
  obtain ⟨_, step, rest⟩ := scans.uncons
  cases rest
  exact step

/-- Outside all functions and blocks. -/
structure Outside (state : LexerState) : Prop where
  sound : state.table.Sound
  top : state.table.scopes.path = [0]
  idle : state.function = none
  unlisted : state.inParams = false

/-- In the main block or in the body of a function, with a number of further braces open. -/
structure InBlock (scope : Nat) (function : Option Handle) (depth : Nat) (state : LexerState) :
    Prop where
  sound : state.table.Sound
  inner : scope ≠ 0
  path : state.table.scopes.path = [scope, 0]
  reading : state.function = function
  unlisted : state.inParams = false
  main : function = none → state.table.scopeName = mainScope
  braces : function.isSome = true → state.depth = depth + 1
  /-- Nothing of the header of a function is among the last two tokens. -/
  unopened : ∀ token, state.previous = some token ∨ state.beforePrevious = some token →
    token.category ≠ functionWord

/-- The symbol of a function, its type, and its parameters with their types. -/
structure Signature where
  handle : Handle
  returns : ValueType
  params : List (Handle × ValueType)
deriving DecidableEq, Repr

/--
In the header of a function, or behind it.

What the function has declared so far is told apart from what the tables held before it.
-/
structure InHeader (before : Environment) (signature : Signature) (listing : Bool)
    (state : LexerState) : Prop where
  sound : state.table.Sound
  inner : before.symbols.scopeCount ≠ 0
  path : state.table.scopes.path = [before.symbols.scopeCount, 0]
  reading : state.function = some (before.symbols.size : Nat)
  listed : state.inParams = listing
  depth : state.depth = 0
  entries : before.symbols.entries <+: state.table.entries
  constants : state.environment.constants = before.constants
  scopes : state.table.scopeCount = before.symbols.scopeCount + 1
  own : signature.handle = (before.symbols.size : Nat)
  entry : ∃ entry, state.table.lookup? (before.symbols.size : Nat) = some (.func entry) ∧
    entry.returns = signature.returns ∧ entry.params = signature.params.map Prod.fst
  /-- The function is the only new one. -/
  single : ∀ {handle entry}, state.table.lookup? handle = some (.func entry) →
    handle = (before.symbols.size : Nat) ∨ before.symbols.lookup? handle = some (.func entry)
  distinct : (signature.params.map Prod.fst).Nodup
  owned : ∀ param ∈ signature.params, ∃ entry, state.table.lookup? param.1 = some (.var entry) ∧
    (Entry.var entry).BelongsTo before.symbols.scopeCount ∧ entry.type = param.2 ∧
    entry.parameter = true
  unopened : ∀ token, state.previous = some token ∨ state.beforePrevious = some token →
    token.category ≠ functionWord ∧ token.category ≠ variableWord

variable {state after : LexerState} {token : Token} {signature : Signature}

theorem Step.window (step : Step state token after) :
    after.previous = some token ∧ after.beforePrevious = state.previous := by
  cases step <;> exact ⟨rfl, rfl⟩

theorem Step.unopened {holds : Token → Prop} (step : Step state token after) (here : holds token)
    (last : ∀ other, state.previous = some other → holds other) :
    ∀ other, after.previous = some other ∨ after.beforePrevious = some other → holds other := by
  obtain ⟨newest, older⟩ := step.window
  rintro other (found | found)
  · rw [newest] at found
    cases found
    exact here
  · exact last other (older ▸ found)

variable {next : Nat}

/-- Within a block only braces count. -/
theorem Role.inner_eq {category : Category}
    (inner : (Role.ofCategory category).inner depth = some next) (notOpen : category ≠ openBrace)
    (notClose : category ≠ closeBrace) : next = depth := by
  rcases Role.ofCategory_cases category with ⟨is, _⟩ | ⟨is, _⟩ | ⟨is, _⟩ | ⟨is, _⟩ | is
  all_goals rw [is] at inner
  case inr.inr.inr.inr =>
    simp only [Role.inner, if_neg notOpen, if_neg notClose] at inner
    split at inner
    · cases inner
    · simpa using inner.symm
  all_goals simpa [Role.inner] using inner.symm

theorem knownIn_of_plain {environment : Environment} (notName : token.category ≠ identifier)
    (notLiteral : token.category ≠ constant ∧ token.category ≠ trueWord ∧
      token.category ≠ falseWord) : token.KnownIn scope environment where
  name isName := absurd isName notName
  literal isLiteral := by
    rcases Role.isLiteral_of_role isLiteral with is | is | is
    · exact absurd is notLiteral.1
    · exact absurd is notLiteral.2.1
    · exact absurd is notLiteral.2.2

variable {function : Option Handle}

section

variable (block : InBlock scope function depth state)
include block

theorem InBlock.opening :
    state.opening ≠ some functionWord := by
  intro opened
  obtain ⟨opener, found, isFunction⟩ := Option.map_eq_some_iff.mp opened
  exact block.unopened opener (.inr found) isFunction

/-- The last brace of a function is open at depth zero only, where none may be closed. -/
theorem InBlock.outermost (inFunction : state.function.isSome = true) (last : state.depth = 1) :
    (Role.ofCategory closeBrace).inner depth = none := by
  have counted := block.braces (block.reading ▸ inFunction)
  have zero : depth = 0 := by omega
  rw [zero]
  rfl

theorem InBlock.step (step : Step state token after)
    (inner : (Role.ofCategory token.category).inner depth = some next) :
    InBlock scope function next after ∧ state.environment.Grown after.environment ∧
      token.KnownIn scope after.environment := by
  have notFunction : token.category ≠ functionWord := by
    intro same
    rw [same] at inner
    cases inner
  have unopened := step.unopened notFunction fun other found => block.unopened other (.inl found)
  have here : state.table.here = scope := by simp [SymbolTable.here, block.path]
  cases step with
  | plain notName notLiteral notStart notEnd notParen notBrace =>
    refine ⟨{ block with unopened, braces := ?_ }, .refl _, knownIn_of_plain notName notLiteral⟩
    -- In a function braces are counted, so a word that changes nothing is none.
    intro inFunction
    have plain : ¬ (token.category = openBrace ∨ token.category = closeBrace) := by
      intro brace
      rw [← block.reading, notBrace brace] at inFunction
      cases inFunction
    rw [Role.inner_eq inner (fun same => plain (.inl same)) (fun same => plain (.inr same))]
    exact block.braces inFunction
  | literal category interned =>
    obtain ⟨grown, found⟩ := ConstantTable.intern_ok interned
    have same : next = depth := by
      apply Role.inner_eq inner <;> rcases category with is | is | is <;> rw [is] <;> decide
    subst same
    refine ⟨{ block with unopened }, { Environment.Grown.refl _ with constants := grown }, ?_, ?_⟩
    · intro isName
      rcases category with is | is | is <;> rw [is] at isName <;> cases isName
    · exact fun _ => found
  | resolved category free found =>
    have same : next = depth := by apply Role.inner_eq inner <;> rw [category] <;> decide
    subst same
    refine ⟨{ block with unopened }, .refl _, ?_, ?_⟩
    · exact fun _ => block.sound.resolve block.inner block.path found
    · intro isLiteral
      rw [category] at isLiteral
      cases isLiteral
  | newVariable category typed opened declared =>
    have same : next = depth := by apply Role.inner_eq inner <;> rw [category] <;> decide
    subst same
    rw [SymbolTable.declareVariable, here] at declared
    -- The new variable belongs to the scope of the block.
    have belongs : (Entry.var ⟨token.lexeme, state.typeBefore, some scope, false, false⟩).BelongsTo
        scope := ⟨block.inner, rfl, rfl⟩
    have sound := block.sound.declare belongs declared
    have grown := Environment.Grown.declare declared
    obtain ⟨handle, rfl⟩ := SymbolTable.declare_ok declared
    refine ⟨{ block with
      sound, path := block.path, unopened
      main := fun isMain => (ScopeTree.nameOf_define ..).trans (block.main isMain) }, grown, ?_, ?_⟩
    · exact fun _ => ⟨_, by rw [handle, SymbolTable.lookup?_append rfl, if_pos rfl], .inl belongs⟩
    · intro isLiteral
      rw [category] at isLiteral
      cases isLiteral
  | newFunction category typed opened declared => exact absurd opened block.opening
  | newParameter category typed notVariable notFunction header reading declared =>
    rw [block.unlisted] at header
    cases header
  | start category | stop category =>
    rw [category] at inner
    cases inner
  | closeParen category =>
    have same : next = depth := by apply Role.inner_eq inner <;> rw [category] <;> decide
    subst same
    exact ⟨{ block with unlisted := rfl, unopened }, .refl _,
      knownIn_of_plain (by rw [category]; decide) (by rw [category]; decide)⟩
  | openBrace category inFunction =>
    have deeper : next = depth + 1 := by
      rw [category] at inner
      exact (Option.some.inj inner).symm
    refine ⟨{ block with unopened, braces := ?_ }, .refl _,
      knownIn_of_plain (by rw [category]; decide) (by rw [category]; decide)⟩
    intro isFunction
    have counted := block.braces isFunction
    show state.depth + 1 = (next : Int) + 1
    omega
  | closeBrace category inFunction notLast =>
    rw [category] at inner
    by_cases outermost : depth = 0
    · subst outermost
      cases inner
    · have shallower : next = depth - 1 := by
        simp only [Role.ofCategory, Role.inner, if_neg outermost] at inner
        exact (Option.some.inj inner).symm
      refine ⟨{ block with unopened, braces := ?_ }, .refl _,
        knownIn_of_plain (by rw [category]; decide) (by rw [category]; decide)⟩
      intro isFunction
      have counted := block.braces isFunction
      show state.depth - 1 = (next : Int) + 1
      omega
  | endFunction category inFunction last popped =>
    rw [category, block.outermost inFunction last] at inner
    cases inner

end

theorem InBlock.scans :
    ∀ {depth next : Nat} {state : LexerState}, InBlock scope function depth state →
    Scans state tokens after →
    Role.innerAll depth (tokens.map fun token => Role.ofCategory token.category) = some next →
    InBlock scope function next after ∧ state.environment.Grown after.environment ∧
      ∀ token ∈ tokens, token.KnownIn scope after.environment := by
  induction tokens with
  | nil =>
    intro depth next state block scans inner
    cases scans
    obtain rfl : depth = next := by simpa [Role.innerAll] using inner
    exact ⟨block, .refl _, by simp⟩
  | cons token rest ih =>
    intro depth next state block scans inner
    cases scans with
    | cons step others =>
      -- One step for the first token, and the others by induction from where it leads.
      simp only [Role.innerAll, map_cons, foldlM_cons] at inner
      obtain ⟨middle, first, behind⟩ := Option.bind_eq_some_iff.mp inner
      obtain ⟨reached, grown, known⟩ := block.step step first
      obtain ⟨finish, further, others⟩ := ih reached others behind
      refine ⟨finish, grown.trans further, ?_⟩
      intro other member
      rcases mem_cons.mp member with rfl | later
      · exact known.later further.entries further.constants
      · exact others other later

/-- Words that neither refer to anything nor open or close anything. -/
def isQuiet (category : Int) : Bool :=
  category == functionWord || isTypeWord category || category == openParen || category == comma

/-- A quiet word is remembered only. -/
theorem Step.quiet (step : Step state token after) (quiet : isQuiet token.category = true) :
    after = state.remember token := by
  -- Every other step is made by a word of another category.
  cases step with
  | plain => rfl
  | resolved => rfl
  | literal category =>
    rcases category with is | is | is <;> rw [is] at quiet <;> cases quiet
  | newVariable category | newFunction category | newParameter category
  | start category | stop category | closeParen category | openBrace category
  | closeBrace category | endFunction category => rw [category] at quiet; cases quiet

theorem Step.newFunction_inv (step : Step state token after)
    (category : token.category = identifier)
    (typed : state.behindType = true) (opened : state.opening = some functionWord) :
    ∃ table, state.table.declareFunction token.lexeme state.typeBefore = .ok (token.handle, table) ∧
      after = LexerState.remember
        { state.withTable (table.openBody token.handle token.lexeme) with
          function := some token.handle, inParams := true, depth := 0 } token := by
  cases step with
  | plain notName => exact absurd category notName
  | resolved _ free => exact absurd opened (free typed).2.1
  | newVariable _ _ declaring =>
    rw [declaring] at opened
    cases opened
  | newParameter _ _ _ notFunction => exact absurd opened notFunction
  | newFunction _ _ _ declared => exact ⟨_, declared, rfl⟩
  | literal other => rcases other with is | is | is <;> cases category.symm.trans is
  | _ => cases category.symm.trans ‹token.category = _›

theorem Step.newParameter_inv (step : Step state token after)
    (category : token.category = identifier) (typed : state.behindType = true)
    (notVariable : state.opening ≠ some variableWord)
    (notFunction : state.opening ≠ some functionWord) (listing : state.inParams = true)
    {function : Handle} (reading : state.function = some function) :
    ∃ table, state.table.addParameter function token.lexeme state.typeBefore =
        .ok (token.handle, table) ∧
      after = (state.withTable table).remember token := by
  cases step with
  | plain notName => exact absurd category notName
  | resolved _ free =>
    rw [listing] at free
    cases (free typed).2.2
  | newVariable _ _ opened => exact absurd opened notVariable
  | newFunction _ _ opened => exact absurd opened notFunction
  | newParameter _ _ _ _ _ other declared =>
    obtain rfl := Option.some.inj (reading.symm.trans other)
    exact ⟨_, declared, rfl⟩
  | literal other => rcases other with is | is | is <;> cases category.symm.trans is
  | _ => cases category.symm.trans ‹token.category = _›

theorem Outside.openHeader (outside : Outside state) (typed : state.behindType = true)
    (opened : state.opening = some functionWord) (step : Step state token after)
    (category : token.category = identifier) :
    InHeader state.environment { handle := token.handle, returns := state.typeBefore, params := [] }
      true after := by
  have unopened := @Step.unopened state after token
    (fun other => other.category ≠ functionWord ∧ other.category ≠ variableWord) step
    (by rw [category]; decide) (by
      -- The token before the name is a type.
      intro other found
      have isType : isTypeWord other.category = true := by
        simpa [LexerState.behindType, found] using typed
      constructor <;> intro same <;> rw [same] at isType <;> cases isType)
  obtain ⟨table, declared, rfl⟩ := step.newFunction_inv category typed opened
  obtain ⟨handle, sound, path, scopes, entries, looked⟩ :=
    SymbolTable.openBody_ok outside.sound outside.top declared
  exact {
    sound, path, entries, scopes, unopened
    inner := Nat.ne_of_gt outside.sound.present
    own := handle
    reading := congrArg some handle
    listed := rfl
    depth := rfl
    constants := rfl
    entry := ⟨_, (looked _).trans (if_pos rfl), rfl, rfl⟩
    single := by
      intro other entry found
      by_cases same : other = (state.table.size : Nat)
      · exact .inl same
      · exact .inr ((looked other).trans (if_neg same) ▸ found)
    distinct := nodup_nil
    owned := by simp }

variable {listing : Bool}

section

variable (header : InHeader before signature listing state)
include header

theorem InHeader.unopened_step (step : Step state token after)
    (neither : token.category ≠ functionWord ∧ token.category ≠ variableWord) :
    ∀ other, after.previous = some other ∨ after.beforePrevious = some other →
      other.category ≠ functionWord ∧ other.category ≠ variableWord :=
  step.unopened neither fun other found => header.unopened other (.inl found)

theorem InHeader.quiet (step : Step state token after) (quiet : isQuiet token.category = true)
    (notFunction : token.category ≠ functionWord) : InHeader before signature listing after := by
  have notVariable : token.category ≠ variableWord := by
    intro same
    rw [same] at quiet
    cases quiet
  have unopened := header.unopened_step step ⟨notFunction, notVariable⟩
  obtain rfl := step.quiet quiet
  exact { header with unopened }

theorem InHeader.opening :
    state.opening ≠ some functionWord ∧ state.opening ≠ some variableWord := by
  constructor <;> intro opened
  all_goals
    obtain ⟨opener, found, category⟩ := Option.map_eq_some_iff.mp opened
    have neither := header.unopened opener (.inr found)
  · exact neither.1 category
  · exact neither.2 category

end

theorem InHeader.addParameter (header : InHeader before signature true state)
    (typed : state.behindType = true) (step : Step state token after)
    (category : token.category = identifier) :
    InHeader before { signature with
      params := signature.params ++ [(token.handle, state.typeBefore)] } true after := by
  have unopened := header.unopened_step step (by rw [category]; decide)
  obtain ⟨notFunction, notVariable⟩ := header.opening
  obtain ⟨table, declared, rfl⟩ :=
    step.newParameter_inv category typed notVariable notFunction header.listed header.reading
  obtain ⟨entry, found, returns, same⟩ := header.entry
  have here : state.table.here = before.symbols.scopeCount := by
    simp [SymbolTable.here, header.path]
  obtain ⟨handle, sound, path, scopes, entries, looked⟩ :=
    SymbolTable.addParameter_ok header.sound header.inner here found declared
  have own : (before.symbols.size : Int) ≠ state.table.size :=
    Int.ne_of_lt (SymbolTable.lt_size_of_lookup? found)
  have fresh : ∀ param ∈ signature.params, param.1 ≠ (state.table.size : Int) := by
    intro param member
    obtain ⟨held, known, _⟩ := header.owned param member
    exact Int.ne_of_lt (SymbolTable.lt_size_of_lookup? known)
  exact { header with
    sound, unopened
    path := path.trans header.path
    entries := entries _ header.entries (Nat.le_refl _)
    scopes := scopes.trans header.scopes
    entry := ⟨_, (looked _).trans (if_pos rfl), returns, by simp [same]⟩
    single := by
      intro other function known
      have now := (looked other).symm.trans known
      split at now
      · exact .inl ‹_›
      · split at now
        · cases now
        · exact header.single now
    distinct := by
      rw [map_append, nodup_append]
      refine ⟨header.distinct, nodup_singleton _, ?_⟩
      intro param member other last
      obtain ⟨held, inside, rfl⟩ := mem_map.mp member
      rw [mem_singleton.mp last, handle]
      exact fresh held inside
    owned := by
      intro param member
      rcases mem_append.mp member with old | new
      · -- An earlier parameter is neither the function nor the new entry.
        obtain ⟨held, known, belongs⟩ := header.owned param old
        have notFunction : param.1 ≠ (before.symbols.size : Int) := by
          intro same
          rw [same, found] at known
          cases known
        refine ⟨held, ?_, belongs⟩
        exact (looked _).trans ((if_neg notFunction).trans
          ((if_neg (fresh param old)).trans known))
      · rw [mem_singleton.mp new, handle]
        exact ⟨_, (looked _).trans ((if_neg (Ne.symm own)).trans (if_pos rfl)),
          ⟨header.inner, rfl, rfl⟩, rfl, rfl⟩ }

def namedType (token : Token) : ValueType := (ValueType.ofName? token.lexeme).getD .untyped

theorem Step.typeBefore (step : Step state token after) : after.typeBefore = namedType token := by
  simp [LexerState.typeBefore, step.window.1, namedType]

/-- The names among some tokens, each with the type that the token before it names. -/
def typedNames : ValueType → List Token → List (Handle × ValueType)
  | _, [] => []
  | type, token :: rest =>
    if token.category = identifier then (token.handle, type) :: typedNames (namedType token) rest
    else typedNames (namedType token) rest

theorem map_typedNames (type : ValueType) (tokens : List Token) :
    (typedNames type tokens).map Prod.fst = nameHandles tokens := by
  induction tokens generalizing type with
  | nil => rfl
  | cons token rest ih =>
    rw [typedNames]
    split <;> simp_all [nameHandles]

theorem InHeader.scans :
    ∀ {signature : Signature} {typed next : Bool} {state : LexerState},
    InHeader before signature true state → (typed = true → state.behindType = true) →
    Scans state tokens after →
    (tokens.map fun token => Role.ofCategory token.category).foldlM
      (fun typed role => role.listed typed) typed = some next →
    InHeader before { signature with
      params := signature.params ++ typedNames state.typeBefore tokens } true after := by
  induction tokens with
  | nil =>
    intro signature typed next state header _ scans _
    cases scans
    simpa [typedNames] using header
  | cons token rest ih =>
    intro signature typed next state header behind scans listed
    cases scans with
    | cons step others =>
      rw [map_cons, foldlM_cons] at listed
      obtain ⟨middle, first, further⟩ := Option.bind_eq_some_iff.mp listed
      cases typed with
      | true =>
        -- Behind a type there is the name of a parameter.
        have category : token.category = identifier := by
          rcases Role.ofCategory_cases token.category with ⟨_, is⟩ | ⟨is, _⟩ | ⟨is, _⟩ | ⟨is, _⟩ | is
          · exact is
          all_goals rw [is] at first; cases first
        rw [category] at first
        cases first
        have reached := ih (header.addParameter (behind rfl) step category) (by simp) others further
        simpa [typedNames, category, step.typeBefore] using reached
      | false =>
        rcases Role.ofCategory_cases token.category with ⟨is, _⟩ | ⟨is, _⟩ | ⟨is, typed⟩ | ⟨is, _⟩ | is
        all_goals rw [is] at first
        · cases first
        · cases first
        · -- A type may be followed by the name of a parameter.
          have neither : token.category ≠ functionWord ∧ token.category ≠ identifier := by
            constructor <;> intro same <;> rw [same] at typed <;> cases typed
          have reached := ih (header.quiet step (by simp [isQuiet, typed]) neither.1)
            (fun _ => by simpa [LexerState.behindType, step.window.1] using typed) others further
          rwa [typedNames, if_neg neither.2, ← step.typeBefore]
        · cases first
        · simp only [Role.listed, Option.ite_none_right_eq_some, Option.some.injEq] at first
          obtain ⟨category, rfl⟩ := first
          have reached := ih (header.quiet step (by rw [category]; rfl) (by rw [category]; decide))
            (by simp) others further
          rwa [typedNames, if_neg (by rw [category]; decide), ← step.typeBefore]

theorem InHeader.close (header : InHeader before signature true state) (step : Step state token after)
    (category : token.category = closeParen) :
    InHeader before signature false after ∧ after.table = state.table := by
  have unopened := header.unopened_step step (by rw [category]; decide)
  cases step with
  | plain _ _ _ _ notParen => exact absurd category notParen
  | closeParen => exact ⟨{ header with listed := rfl, unopened }, rfl⟩
  | literal other => rcases other with is | is | is <;> cases category.symm.trans is
  | _ => cases category.symm.trans ‹token.category = _›

theorem InHeader.openBody (header : InHeader before signature false state)
    (step : Step state token after) (category : token.category = openBrace) :
    InBlock before.symbols.scopeCount (some (before.symbols.size : Nat)) 0 after ∧
      after.environment = state.environment := by
  have unopened := @Step.unopened state after token
    (fun other => other.category ≠ functionWord) step (by rw [category]; decide)
    fun other found => (header.unopened other (.inl found)).1
  cases step with
  | plain _ _ _ _ _ notBrace =>
    have idle := notBrace (.inl category)
    rw [header.reading] at idle
    cases idle
  | openBrace =>
    refine ⟨?_, rfl⟩
    exact { header with
      unlisted := header.listed
      main := fun isMain => by cases isMain
      braces := fun _ => congrArg (· + 1) header.depth
      unopened }
  | literal other => rcases other with is | is | is <;> cases category.symm.trans is
  | _ => cases category.symm.trans ‹token.category = _›

/-- The words of the header of a function, up to the brace that opens its body, and what they declare. -/
def Heading (tokens : List Token) (signature : Signature) : Prop :=
  ∃ word type name opening params closing brace,
    tokens = [word, type, name, opening] ++ params ++ [closing, brace] ∧
    word.category = functionWord ∧ isTypeWord type.category = true ∧ name.category = identifier ∧
    opening.category = openParen ∧ closing.category = closeParen ∧ brace.category = openBrace ∧
    (params.map fun token => Role.ofCategory token.category).foldlM
      (fun typed role => role.listed typed) false = some false ∧
    signature = ⟨name.handle, namedType type, typedNames (namedType opening) params⟩

theorem Outside.header (outside : Outside state) (heading : Heading tokens signature)
    (scans : Scans state tokens after) :
    InBlock state.table.scopeCount (some (state.table.size : Nat)) 0 after ∧
      ∃ behind, InHeader state.environment signature false behind ∧
        after.environment = behind.environment := by
  obtain ⟨word, type, name, opening, params, closing, brace, rfl, opens, typed, named, starts, closes,
    braces, listed, rfl⟩ := heading
  obtain ⟨third, scans, ending⟩ := scans.split
  obtain ⟨second, scans, listing⟩ := scans.split
  -- A quiet word leaves the tables as they are, so the function is declared in those of the start.
  obtain ⟨_, opened, scans⟩ := scans.uncons
  obtain rfl := opened.quiet (by rw [opens]; rfl)
  obtain ⟨_, typing, scans⟩ := scans.uncons
  have before := typing.typeBefore
  have quiet : isQuiet type.category = true := by simp [isQuiet, typed]
  obtain rfl := typing.quiet quiet
  obtain ⟨_, naming, scans⟩ := scans.uncons
  have start : Outside ((state.remember word).remember type) := { outside with }
  have inside := start.openHeader
    (by simpa [LexerState.behindType, LexerState.remember] using typed)
    (by simp [LexerState.opening, LexerState.remember, opens]) naming named
  rw [before] at inside
  have reached := inside.quiet scans.single (by rw [starts]; rfl) (by rw [starts]; decide)
  have filled := reached.scans (by simp) listing listed
  rw [scans.single.typeBefore] at filled
  obtain ⟨_, closed, ending⟩ := ending.uncons
  obtain ⟨behind, _⟩ := filled.close closed closes
  obtain ⟨block, same⟩ := behind.openBody ending.single braces
  exact ⟨block, _, behind, same⟩

theorem InBlock.endFunction {function : Handle} (block : InBlock scope (some function) 0 state)
    (step : Step state token after) (category : token.category = closeBrace) :
    Outside after ∧ after.table = { state.table with scopes.path := [0] } ∧
      after.environment.constants = state.environment.constants := by
  have counted := block.braces rfl
  cases step with
  | plain _ _ _ _ _ notBrace =>
    have idle := notBrace (.inr category)
    rw [block.reading] at idle
    cases idle
  | closeBrace _ _ inner => exact absurd counted inner
  | endFunction _ _ _ popped =>
    rw [SymbolTable.pop_ok block.path] at popped
    cases popped
    exact ⟨⟨{ block.sound with }, rfl, rfl, block.unlisted⟩, rfl, rfl⟩
  | literal other => rcases other with is | is | is <;> cases category.symm.trans is
  | _ => cases category.symm.trans ‹token.category = _›

theorem Outside.openMain (outside : Outside state)
    (unopened : ∀ other, state.previous = some other → other.category ≠ functionWord)
    (step : Step state token after) (category : token.category = startWord) :
    InBlock state.table.scopeCount none 0 after ∧ after.table = state.table.push mainScope ∧
      after.environment.constants = state.environment.constants := by
  have window := @Step.unopened state after token (fun other => other.category ≠ functionWord) step
    (by rw [category]; decide) unopened
  cases step with
  | plain _ _ notStart => exact absurd category notStart
  | start =>
    refine ⟨?_, rfl, rfl⟩
    exact {
      sound := outside.sound.push outside.top mainScope
      inner := Nat.ne_of_gt outside.sound.present
      path := congrArg (state.table.scopeCount :: ·) outside.top
      reading := outside.idle
      unlisted := outside.unlisted
      main := fun _ => by
        simp [SymbolTable.scopeName, SymbolTable.here, SymbolTable.push, ScopeTree.push,
          ScopeTree.nameOf, ScopeTree.scope?, LexerState.table, LexerState.remember]
      braces := fun isFunction => by cases isFunction
      unopened := window }
  | literal other => rcases other with is | is | is <;> cases category.symm.trans is
  | _ => cases category.symm.trans ‹token.category = _›

theorem Outside.safe (outside : Outside state) : state.Safe where
  header listing := by
    rw [outside.unlisted] at listing
    cases listing
  main isMain := by
    -- The global scope has another name.
    rw [outside.sound.scopeName_eq outside.top] at isMain
    exact absurd isMain (by decide)
  body inFunction := by
    rw [outside.idle] at inFunction
    cases inFunction

/-- Within a scope no word leads to a fault, unless parameters are listed without a function. -/
theorem safe_of_nested {outer : Nat} (path : state.table.scopes.path = [scope, outer])
    (header : state.inParams = true → state.function.isSome = true) : state.Safe where
  header := header
  main _ := ⟨_, SymbolTable.pop_ok path⟩
  body _ _ := ⟨_, SymbolTable.pop_ok path⟩

theorem InBlock.safe (block : InBlock scope function depth state) : state.Safe :=
  safe_of_nested block.path fun listing => by
    rw [block.unlisted] at listing
    cases listing

theorem InHeader.safe (header : InHeader before signature listing state) : state.Safe :=
  safe_of_nested header.path fun _ => by
    rw [header.reading]
    rfl

theorem InBlock.endMain (block : InBlock scope none depth state) (step : Step state token after)
    (category : token.category = endWord) :
    Outside after ∧ after.table = { state.table with scopes.path := [0] } ∧
      after.environment.constants = state.environment.constants := by
  cases step with
  | plain _ _ _ notEnd => exact absurd (block.main rfl) (notEnd category)
  | stop _ _ popped =>
    rw [SymbolTable.pop_ok block.path] at popped
    cases popped
    exact ⟨⟨{ block.sound with }, rfl, block.reading, block.unlisted⟩, rfl, rfl⟩
  | literal other => rcases other with is | is | is <;> cases category.symm.trans is
  | _ => cases category.symm.trans ‹token.category = _›

end Language

end ThreeAddress

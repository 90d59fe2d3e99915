import ThreeAddress.Proofs.Language.Tracing
import ThreeAddress.Proofs.Syntax.Tracking

/-!
The tokens that a parser is given.

As long as the tokens read follow the grammar, the lexer is in the state that belongs to their place, and no token leads to a fault.
-/

namespace ThreeAddress.Language

variable {state after : LexerState} {token : Token}

theorem Role.ofCategory_of_type {category : Int} (isType : isTypeWord category = true) :
    Role.ofCategory category = .typeWord := by
  have notName : category ≠ identifier := by
    rintro rfl
    cases isType
  have notLiteral : ¬ (category = constant ∨ category = trueWord ∨ category = falseWord) := by
    rintro (rfl | rfl | rfl) <;> cases isType
  rw [Role.ofCategory, if_neg notName, if_neg notLiteral, if_pos isType]

/-- The last two tokens of a lexer in a block. -/
def Window.Holds : Window → LexerState → Prop
  | free, state => state.behindType = false ∧
      ∀ token, state.previous = some token → token.category ≠ variableWord
  | opened, state => ∃ token, state.previous = some token ∧ token.category = variableWord
  | typed, state => state.behindType = true ∧ state.opening = some variableWord

/-- Behind a word that is neither a type nor opens a declaration, no declaration goes on. -/
theorem Window.free_of_step (step : Step state token after)
    (notType : isTypeWord token.category = false) (notVariable : token.category ≠ variableWord) :
    Window.free.Holds after := by
  refine ⟨by simp [LexerState.behindType, step.window.1, notType], fun other found => ?_⟩
  rw [step.window.1] at found
  cases found
  exact notVariable

theorem Window.Holds.step {window next : Window} (holds : window.Holds state)
    (step : Step state token after)
    (leads : window.after (Role.ofCategory token.category) = some next) : next.Holds after := by
  obtain ⟨newest, older⟩ := step.window
  have typed : isTypeWord token.category = true →
      Role.ofCategory token.category = .typeWord := Role.ofCategory_of_type
  cases window with
  | free =>
    have notType : isTypeWord token.category = false := by
      rw [Bool.eq_false_iff]
      intro isType
      rw [typed isType] at leads
      cases leads
    -- Nothing but the word for variables opens a declaration.
    by_cases isVariable : token.category = variableWord
    · rw [isVariable] at leads
      cases leads
      exact ⟨token, newest, isVariable⟩
    · have same : next = .free := by
        rcases Role.ofCategory_cases token.category with
          ⟨is, _⟩ | ⟨is, _⟩ | ⟨_, is⟩ | ⟨is, _⟩ | is
        · rw [is] at leads
          exact (Option.some.inj leads).symm
        · rw [is] at leads
          exact (Option.some.inj leads).symm
        · rw [is] at notType
          cases notType
        · rw [is] at leads
          exact (Option.some.inj leads).symm
        · rw [is, Window.after, if_neg isVariable] at leads
          exact (Option.some.inj leads).symm
      rw [same]
      exact Window.free_of_step step notType isVariable
  -- Behind that word only a type has a place, and behind the type only a name.
  | opened =>
    obtain ⟨opener, found, isVariable⟩ := holds
    rcases Role.ofCategory_cases token.category with ⟨is, _⟩ | ⟨is, _⟩ | ⟨is, isType⟩ | ⟨is, _⟩ | is
    all_goals rw [is] at leads
    all_goals cases leads
    refine ⟨by simp [LexerState.behindType, newest, isType], ?_⟩
    simp [LexerState.opening, older, found, isVariable]
  | typed =>
    rcases Role.ofCategory_cases token.category with ⟨is, isName⟩ | ⟨is, _⟩ | ⟨is, _⟩ | ⟨is, _⟩ | is
    all_goals rw [is] at leads
    all_goals cases leads
    exact Window.free_of_step step (by rw [isName]; rfl) (by rw [isName]; decide)

/-- The state in which a lexer is at some place of a program. -/
def Mode.Holds : Mode → LexerState → Prop
  | outside, state => Outside state ∧
      ∀ token, state.previous = some token → token.category ≠ functionWord
  | opened, state => Outside state ∧
      ∃ token, state.previous = some token ∧ token.category = functionWord
  | typed, state => Outside state ∧ state.behindType = true ∧ state.opening = some functionWord
  | header, state => ∃ before signature, InHeader before signature true state
  | headerTyped, state =>
      (∃ before signature, InHeader before signature true state) ∧ state.behindType = true
  | closed, state => ∃ before signature, InHeader before signature false state
  | body depth window, state =>
      (∃ scope function, InBlock scope (some function) depth state) ∧ window.Holds state
  | main depth window, state => (∃ scope, InBlock scope none depth state) ∧ window.Holds state
  | finished, state => Outside state

variable {mode : Mode}

/-- Nowhere in a program a word leads to a fault. -/
theorem Mode.Holds.safe (holds : mode.Holds state) : state.Safe := by
  cases mode with
  | outside | opened | typed => exact holds.1.safe
  | header | closed => obtain ⟨_, _, header⟩ := holds; exact header.safe
  | headerTyped => obtain ⟨⟨_, _, header⟩, _⟩ := holds; exact header.safe
  | body depth window => obtain ⟨⟨_, _, block⟩, _⟩ := holds; exact block.safe
  | main depth window => obtain ⟨⟨_, block⟩, _⟩ := holds; exact block.safe
  | finished => exact Outside.safe holds

/-- The categories of the words that may stand at a place, and where they lead. -/
def Mode.Leads (mode : Mode) (category : Int) (next : Mode) : Prop :=
  match mode with
  | outside => category = functionWord ∧ next = opened ∨ category = startWord ∧ next = main 0 .free
  | opened => isTypeWord category = true ∧ next = typed
  | typed => category = identifier ∧ next = header
  | header => isTypeWord category = true ∧ next = headerTyped ∨
      (category = openParen ∨ category = comma) ∧ next = header ∨
      category = closeParen ∧ next = closed
  | headerTyped => category = identifier ∧ next = header
  | closed => category = openBrace ∧ next = body 0 .free
  | body depth window => depth = 0 ∧ category = closeBrace ∧ next = outside ∨
      ∃ deeper behind, (Role.ofCategory category).inner depth = some deeper ∧
        window.after (Role.ofCategory category) = some behind ∧ next = body deeper behind
  | main depth window => depth = 0 ∧ category = endWord ∧ next = finished ∨
      ∃ deeper behind, (Role.ofCategory category).inner depth = some deeper ∧
        window.after (Role.ofCategory category) = some behind ∧ next = main deeper behind
  | finished => False

theorem Mode.leads_of_after {next : Mode} {category : Int}
    (after : mode.after (Role.ofCategory category) = some next) : mode.Leads category next := by
  cases mode with
  | body depth window | main depth window =>
    simp only [Mode.after] at after
    split at after
    · rename_i last
      cases after
      exact .inl ⟨last.1, Role.eq_of_word last.2, rfl⟩
    · obtain ⟨_, within, rfl⟩ := Option.map_eq_some_iff.mp after
      obtain ⟨deeper, inner, rest⟩ := Option.bind_eq_some_iff.mp within
      obtain ⟨behind, moves, same⟩ := Option.bind_eq_some_iff.mp rest
      cases same
      exact .inr ⟨deeper, behind, inner, moves, rfl⟩
  | outside | opened | typed | header | headerTyped | closed | finished =>
    -- At these places each role allowed is that of a few categories.
    rcases Role.ofCategory_cases category with
      ⟨is, same⟩ | ⟨is, same⟩ | ⟨is, same⟩ | ⟨is, same⟩ | is
    all_goals rw [is] at after
    all_goals simp only [Mode.after, reduceCtorEq, Option.some.injEq,
      Option.ite_none_right_eq_some] at after
    all_goals grind [Mode.Leads]

theorem Outside.quiet (outside : Outside state)
    (step : Step state token after) (quiet : isQuiet token.category = true) : Outside after := by
  obtain rfl := step.quiet quiet
  exact { outside with }

/-- The words that may stand at a place lead on to the next. -/
theorem Mode.Holds.step {next : Mode} (holds : mode.Holds state) (step : Step state token after)
    (leads : mode.Leads token.category next) : next.Holds after := by
  obtain ⟨newest, older⟩ := step.window
  have quietType : isTypeWord token.category = true → isQuiet token.category = true := by
    intro isType
    simp [isQuiet, isType]
  cases mode with
  | outside =>
    obtain ⟨outside, unopened⟩ := holds
    rcases leads with ⟨category, rfl⟩ | ⟨category, rfl⟩
    · exact ⟨outside.quiet step (by rw [category]; rfl), token, newest, category⟩
    · exact ⟨⟨_, (outside.openMain unopened step category).1⟩,
        Window.free_of_step step (by rw [category]; rfl) (by rw [category]; decide)⟩
  | opened =>
    obtain ⟨outside, opener, found, category⟩ := holds
    obtain ⟨isType, rfl⟩ := leads
    refine ⟨outside.quiet step (quietType isType), ?_, ?_⟩
    · simpa [LexerState.behindType, newest] using isType
    · simp [LexerState.opening, older, found, category]
  | typed =>
    obtain ⟨outside, typed, opened⟩ := holds
    obtain ⟨category, rfl⟩ := leads
    exact ⟨_, _, outside.openHeader typed opened step category⟩
  | header =>
    obtain ⟨before, params, header⟩ := holds
    rcases leads with ⟨isType, rfl⟩ | ⟨mark, rfl⟩ | ⟨category, rfl⟩
    · have notFunction : token.category ≠ functionWord := by
        intro same
        rw [same] at isType
        cases isType
      refine ⟨⟨before, params, header.quiet step (quietType isType) notFunction⟩, ?_⟩
      simpa [LexerState.behindType, newest] using isType
    · refine ⟨before, params, header.quiet step ?_ ?_⟩
      · rcases mark with is | is <;> rw [is] <;> rfl
      · rcases mark with is | is <;> rw [is] <;> decide
    · exact ⟨before, params, (header.close step category).1⟩
  | headerTyped =>
    obtain ⟨⟨before, params, header⟩, typed⟩ := holds
    obtain ⟨category, rfl⟩ := leads
    exact ⟨before, _, header.addParameter typed step category⟩
  | closed =>
    obtain ⟨before, params, header⟩ := holds
    obtain ⟨category, rfl⟩ := leads
    exact ⟨⟨_, _, (header.openBody step category).1⟩,
      Window.free_of_step step (by rw [category]; rfl) (by rw [category]; decide)⟩
  | body depth window =>
    obtain ⟨⟨scope, function, block⟩, window⟩ := holds
    rcases leads with ⟨rfl, category, rfl⟩ | ⟨deeper, behind, inner, moves, rfl⟩
    · refine ⟨(block.endFunction step category).1, ?_⟩
      intro other found
      rw [newest] at found
      cases found
      rw [category]
      decide
    · exact ⟨⟨scope, function, (block.step step inner).1⟩, window.step step moves⟩
  | main depth window =>
    obtain ⟨⟨scope, block⟩, window⟩ := holds
    rcases leads with ⟨rfl, category, rfl⟩ | ⟨deeper, behind, inner, moves, rfl⟩
    · exact (block.endMain step category).1
    · exact ⟨⟨scope, (block.step step inner).1⟩, window.step step moves⟩
  | finished => exact leads.elim

/-- A source that gives the tokens of some pieces, read from a state on, with their trace and what they lead to. -/
def Delivers (last : Token) (final : LexerState) (entries : List (Token × Bool)) (state : LexerState)
    (source : TokenSource) : Prop :=
  ∃ pieces : List (Piece WordKind), (∀ piece ∈ pieces, piece.kind.all WordKind.isNumbered = true) ∧
    source = ⟨(readPieces interpret last [] pieces state).1, last⟩ ∧
    (readPieces interpret last [] pieces state).2 = final ∧ trace pieces state = entries

/-- A request for a token that is answered by an error. -/
def Refuses (source : TokenSource) : Prop :=
  ∃ error, Parser.request source = .error (.diagnostic error)

/-- A request for a token that is answered by the next token, or by the end of input. -/
inductive Answers (last : Token) (final : LexerState) (state : LexerState) (source : TokenSource) :
    List (Token × Bool) → Prop where
  | token {token : Token} {after : LexerState} {rest : TokenSource} {entries : List (Token × Bool)}
      (requested : Parser.request source = .ok (token, rest)) (more : token.isEnd = false)
      (step : Step state token after) (delivers : Delivers last final entries after rest) :
      Answers last final state source
        ((token, decide (state.table.size < after.table.size)) :: entries)
  | last {rest : TokenSource} (requested : Parser.request source = .ok (last, rest))
      (same : final = state) : Answers last final state source []

variable {last : Token} {final : LexerState} {entries : List (Token × Bool)}

theorem refuses_of_errors (safe : state.Safe) (pieces : List (Piece WordKind)) :
    ∀ (error : Diagnostic) (errors : List Diagnostic),
    (∀ piece ∈ pieces, piece.kind.all WordKind.isNumbered = true) →
    Refuses ⟨(readPieces interpret last (error :: errors) pieces state).1, last⟩ := by
  induction pieces with
  | nil => exact fun error errors _ => ⟨error, rfl⟩
  | cons piece rest ih =>
    intro error errors numbered
    have behind := (List.forall_mem_cons.mp numbered).2
    have outcome := interpret_outcome (numbered piece (List.mem_cons_self ..)) safe.toClosable
    rw [readPieces]
    generalize interpret piece state = result at outcome ⊢
    cases outcome with
    | skipped => exact ih error errors behind
    | rejected more => exact ih error (errors ++ [more]) behind
    | flawed => exact ⟨error, rfl⟩
    | read => exact ⟨error, rfl⟩
    | stray _ stray => exact absurd stray safe.not_stray

theorem request_delivered {source : TokenSource} (safe : state.Safe)
    (delivers : Delivers last final entries state source) :
    Refuses source ∨ Answers last final state source entries := by
  obtain ⟨pieces, numbered, rfl, result, rfl⟩ := delivers
  induction pieces with
  | nil => exact .inr (.last rfl result.symm)
  | cons piece rest ih =>
    have behind := (List.forall_mem_cons.mp numbered).2
    have outcome := interpret_outcome (numbered piece (List.mem_cons_self ..)) safe.toClosable
    rw [readPieces] at result ⊢
    rw [trace]
    generalize interpret piece state = interpreted at outcome result ⊢
    cases outcome with
    | skipped => exact ih behind result
    | rejected error => exact .inl (refuses_of_errors safe rest error [] behind)
    | flawed error => exact .inl ⟨error, rfl⟩
    | read step more => exact .inr (.token rfl more step ⟨rest, behind, rfl, result, rfl⟩)
    | stray _ stray => exact absurd stray safe.not_stray

/-- Where a parser and the lexer that it reads from stand, the current token being read already. -/
inductive Current (last : Token) (final : LexerState) (mode : Mode) (state : LexerState)
    (parse : ParseState) : List (Token × Bool) → Prop where
  | token {after : LexerState} {entries : List (Token × Bool)} (holds : mode.Holds state)
      (more : parse.token.isEnd = false) (step : Step state parse.token after)
      (delivers : Delivers last final entries after parse.source) :
      Current last final mode state parse
        ((parse.token, decide (state.table.size < after.table.size)) :: entries)
  | last (ended : parse.token.isEnd = true) (same : final = state) :
      Current last final mode state parse []

theorem Current.renumbered {parse other : ParseState}
    (current : Current last final mode state parse entries) (token : other.token = parse.token)
    (source : other.source = parse.source) : Current last final mode state other entries := by
  cases current with
  | token holds more step delivers =>
    rw [← token] at more step ⊢
    exact .token holds more step (source ▸ delivers)
  | last ended same => exact .last (token ▸ ended) same

theorem Current.next (ended : last.isEnd = true) {next : Mode} {parse : ParseState}
    (current : Current last final mode state parse entries) (more : parse.token.isEnd = false)
    (leads : mode.after (Role.ofCategory parse.token.category) = some next) :
    Refuses parse.source ∨ ∃ token source after others,
      Parser.request parse.source = .ok (token, source) ∧ Step state parse.token after ∧
      entries = (parse.token, decide (state.table.size < after.table.size)) :: others ∧
      ∀ arena, Current last final next after ⟨token, source, arena⟩ others := by
  cases current with
  | last ended => rw [more] at ended; cases ended
  | token holds _ step delivers =>
    have there := holds.step step (Mode.leads_of_after leads)
    rcases request_delivered there.safe delivers with refused | answered
    · exact .inl refused
    · right
      cases answered with
      | token requested further beyond onward =>
        exact ⟨_, _, _, _, requested, step, rfl, fun _ => .token there further beyond onward⟩
      | last requested same =>
        exact ⟨_, _, _, _, requested, step, rfl, fun _ => .last ended same⟩

/-- The places of a program keep a parser in step with the lexer. -/
theorem tracks (ended : last.isEnd = true) (final : LexerState) :
    Parser.Tracks standardGrammar (fun mode symbol => mode.after (Role.ofSymbol symbol))
      (fun mode parse => ∃ state entries, Current last final mode state parse entries) where
  renumbered := by
    rintro mode parse other ⟨state, entries, current⟩ token source
    exact ⟨state, entries, current.renumbered token source⟩
  reads := by
    rintro mode next parse name ⟨state, entries, current⟩ more leads
    rcases current.next ended more leads with
      refused | ⟨token, source, after, others, requested, _, _, there⟩
    · exact .inl refused
    · exact .inr ⟨token, source, requested, after, others, there _⟩
  closed := by
    intro production member mode next leads
    have body := afterAll_bodies (Role.fits member).bodies leads
    rwa [List.foldlM_map] at body

theorem holds_start : Mode.outside.Holds { environment := .empty } :=
  ⟨⟨SymbolTable.sound_empty, rfl, rfl, rfl⟩, by simp⟩

theorem delivers_lexFrom (text : Text) :
    Delivers (Token.atEnd text.length) (lexFrom .empty text).2 (traceText text)
      { environment := .empty } (lexFrom .empty text).1 :=
  ⟨lexicon.pieces text, fun _ => isNumbered_of_mem, rfl, rfl, rfl⟩

theorem request_lexFrom (text : Text) :
    Refuses (lexFrom .empty text).1 ∨ ∃ token source,
      Parser.request (lexFrom .empty text).1 = .ok (token, source) ∧ ∀ arena,
      Current (Token.atEnd text.length) (lexFrom .empty text).2 .outside { environment := .empty }
        ⟨token, source, arena⟩ (traceText text) := by
  rcases request_delivered holds_start.safe (delivers_lexFrom text) with refused | answered
  · exact .inl refused
  · right
    generalize traceText text = entries at answered
    cases answered with
    | token requested more step delivers =>
      exact ⟨_, _, requested, fun _ => .token holds_start more step delivers⟩
    | last requested same => exact ⟨_, _, requested, fun _ => .last rfl same⟩

theorem parse_lexFrom {parser : Parser} (reporting : parser.halting = false)
    (faithful : parser.table.Faithful standardGrammar) (text : Text) :
    (∃ tree, parser.parse (lexFrom .empty text).1 = .ok tree) ∨
      ∃ error, parser.parse (lexFrom .empty text).1 = .error (.diagnostic error) := by
  -- The grammar is LL(1), so the parse comes to an end.
  have ends := Parser.parse_ne_endless standardGrammar_wellFormed faithful
    (faithful.settles standardGrammar_isLL1)
    (rfl : (lexFrom .empty text).1.last.isEnd = true)
  rcases request_lexFrom text with ⟨error, refused⟩ | ⟨token, source, requested, current⟩
  · right
    exact ⟨error, by simp [Parser.parse, Parser.build, refused, bind, Except.bind]⟩
  · have leads : Mode.outside.after
        (Role.ofSymbol (.nonterminal parser.table.grammar.start)) = some .finished := by
      rw [faithful.grammar_eq, standardGrammar_start]
      decide
    exact ((tracks rfl (lexFrom .empty text).2).parse reporting faithful requested
      ⟨_, _, current _⟩ leads).resolve_left ends

theorem traces_of_reads (ended : last.isEnd = true) {tokens : List Token} {parse after : ParseState}
    (reads : Parser.Reads parse tokens after) :
    ∀ {mode next : Mode} {state : LexerState} {entries : List (Token × Bool)},
    Current last final mode state parse entries →
    (tokens.map fun token => Role.ofCategory token.category).foldlM Mode.after mode = some next →
    ∃ front others there, entries = front ++ others ∧ front.map Prod.fst = tokens ∧
      Traces state front there ∧ Current last final next there after others := by
  induction reads with
  | @nothing parse after token source =>
    intro mode next state entries current leads
    obtain rfl : mode = next := by simpa using leads
    exact ⟨[], entries, state, rfl, rfl, .nil, current.renumbered token source⟩
  | @token parse middle after tokens more requested reads ih =>
    intro mode next state entries current leads
    rw [List.map_cons, List.foldlM_cons] at leads
    obtain ⟨between, first, others⟩ := Option.bind_eq_some_iff.mp leads
    rcases current.next ended more first with
      ⟨error, refused⟩ | ⟨token, source, _, _, answer, step, rfl, there⟩
    · rw [refused] at requested
      cases requested
    · rw [answer] at requested
      cases requested
      obtain ⟨front, behind, final, rfl, rfl, traces, current⟩ := ih (there middle.arena) others
      exact ⟨_ :: front, behind, final, rfl, rfl, .cons step traces, current⟩

/-- The tokens of the tree of a text are those of its trace, which led the lexer to its end. -/
theorem traces_of_parse {parser : Parser} (faithful : parser.table.Faithful standardGrammar)
    {text : Text} {tree : SyntaxTree} (parsed : parser.parse (lexFrom .empty text).1 = .ok tree) :
    (traceText text).map Prod.fst = SyntaxTree.tokens tree ∧
      Traces { environment := .empty } (traceText text) (lexFrom .empty text).2 := by
  obtain ⟨token, source, after, requested, derived, ended⟩ := Parser.parse_reads faithful parsed
  rcases request_lexFrom text with ⟨error, refused⟩ | ⟨first, rest, answer, current⟩
  · rw [refused] at requested
    cases requested
  · rw [answer] at requested
    cases requested
    have leads : Mode.outside.after (Role.ofSymbol (SyntaxTree.symbol tree)) = some .finished := by
      rw [derived.symbol_eq, standardGrammar_start]
      decide
    obtain ⟨front, others, there, whole, tokens, traces, current⟩ :=
      traces_of_reads rfl derived.reads (current _) (afterAll_tokens derived.derivation leads)
    cases current with
    | token _ more => rw [ended] at more; cases more
    | last _ same =>
      rw [List.append_nil] at whole
      rw [whole, same]
      exact ⟨tokens, traces⟩

theorem scans_of_parse {parser : Parser} (faithful : parser.table.Faithful standardGrammar)
    {text : Text} {tree : SyntaxTree} (parsed : parser.parse (lexFrom .empty text).1 = .ok tree) :
    standardGrammar.IsDerivation tree ∧
      SyntaxTree.symbol tree = .nonterminal standardGrammar.start ∧
      Scans { environment := .empty } (SyntaxTree.tokens tree) (lexFrom .empty text).2 := by
  obtain ⟨_, _, _, _, derived, _⟩ := Parser.parse_reads faithful parsed
  obtain ⟨tokens, traces⟩ := traces_of_parse faithful parsed
  exact ⟨derived.derivation, derived.symbol_eq, tokens ▸ traces.scans⟩

end ThreeAddress.Language

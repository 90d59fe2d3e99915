import ThreeAddress.Proofs.Grammar.Loading
import ThreeAddress.Proofs.Syntax.Termination

/-!
Where a parser stops.

The symbols on the stack derive every text that can follow the tokens read and begins with the token ahead.
So over an LL(1) grammar a parser stops at the first token that no text of the grammar has in its place, and its report names that token.
-/

namespace ThreeAddress

open List

namespace Grammar

/-- Every non-terminal derives a text. -/
def Productive (grammar : Grammar) : Prop :=
  ∀ name ∈ grammar.nonterminals, ∃ word, grammar.Produces [.nonterminal name] word

/-- Categories with which some text of the grammar begins. -/
def Opens (grammar : Grammar) (categories : List Category) : Prop :=
  ∃ rest, grammar.Generates (categories ++ rest)

/--
What the symbols still to be derived say about the texts of the grammar, once some categories are read.

They are what is left of a derivation from the start symbol, and derive every text that goes on with the lookahead.
-/
structure Continues (grammar : Grammar) (read : List Category) (symbols : List Symbol)
    (lookahead : Category) : Prop where
  derived : ∃ form, grammar.Derives [.nonterminal grammar.start] (form ++ symbols) ∧
    Spells form read
  covers : ∀ word, word.headD Category.endOfInput = lookahead → grammar.Generates (read ++ word) →
    grammar.Produces symbols word

variable {grammar : Grammar} {read word : List Category} {rest : List Symbol} {name : Text}
  {lookahead : Category} {symbols : List Symbol}

theorem produces_of_reads
    (reads : Reads (fun name word => ∃ production ∈ grammar.productions, production.lhs = name ∧
      grammar.Produces production.body word) symbols word) : grammar.Produces symbols word := by
  induction symbols generalizing word with
  | nil =>
    rw [show word = [] from reads]
    exact produces_nil
  | cons symbol others ih =>
    cases symbol with
    | terminal name category =>
      obtain ⟨later, rfl, behind⟩ := reads
      exact (produces_terminal name category).append (ih behind)
    | nonterminal name =>
      obtain ⟨first, later, rfl, ⟨production, member, rfl, form, derives, spells⟩, behind⟩ := reads
      have front : grammar.Produces [.nonterminal production.lhs] first :=
        ⟨form, (derives_body member).trans derives, spells⟩
      exact front.append (ih behind)

theorem Produces.split (produces : grammar.Produces symbols word) :
    Reads (fun name word => ∃ production ∈ grammar.productions, production.lhs = name ∧
      grammar.Produces production.body word) symbols word :=
  produces.reads fun production member _ reads =>
    ⟨production, member, rfl, produces_of_reads reads⟩

theorem Productive.produces (wellFormed : grammar.WellFormed) (productive : grammar.Productive)
    (known : ∀ name, .nonterminal name ∈ symbols →
      grammar.isNonterminal name = true) : ∃ word, grammar.Produces symbols word := by
  induction symbols with
  | nil => exact ⟨[], produces_nil⟩
  | cons symbol others ih =>
    obtain ⟨later, behind⟩ := ih fun name found => known name (mem_cons_of_mem _ found)
    have first : ∃ word, grammar.Produces [symbol] word := by
      cases symbol with
      | terminal name category => exact ⟨_, produces_terminal name category⟩
      | nonterminal name =>
        exact productive name (wellFormed.mem_nonterminals.mpr (known name mem_cons_self))
    obtain ⟨word, front⟩ := first
    exact ⟨word ++ later, front.append behind⟩

theorem Continues.start : grammar.Continues [] [.nonterminal grammar.start] lookahead :=
  ⟨⟨[], .refl _, rfl⟩, fun _ _ generated => generated⟩

theorem Continues.opens (wellFormed : grammar.WellFormed) (productive : grammar.Productive)
    (continues : grammar.Continues read symbols lookahead) : grammar.Opens read := by
  obtain ⟨form, derives, spells⟩ := continues.derived
  have known := derives.defined wellFormed (by simpa using wellFormed.started)
  obtain ⟨word, target, further, spelled⟩ := productive.produces wellFormed fun name found =>
    known name (mem_append_right form found)
  exact ⟨word, form ++ target, derives.trans (.append (.refl _) further), spells.append spelled⟩

variable {table : Table}

/-- A text that goes on with the lookahead is derived by the production that the table holds for it. -/
theorem Continues.chosen (faithful : table.Faithful grammar) (ll1 : grammar.IsLL1)
    (continues : grammar.Continues read (.nonterminal name :: rest) lookahead)
    (ahead : word.headD Category.endOfInput = lookahead)
    (generated : grammar.Generates (read ++ word)) :
    ∃ production, table.production? name lookahead = some production ∧
      grammar.Produces (production.body ++ rest) word := by
  obtain ⟨first, later, rfl, ⟨production, member, rfl, body⟩, behind⟩ :=
    (continues.covers word ahead generated).split
  have tail := produces_of_reads behind
  refine ⟨production, faithful.production?_eq ll1 member (predicts_iff.mpr ?_), body.append tail⟩
  rcases body.begins with ⟨rfl, vanishes⟩ | ⟨category, others, rfl, begins⟩
  · -- The lookahead stands behind the non-terminal in a form derived from the start symbol.
    obtain ⟨form, derives, -⟩ := continues.derived
    have follows := derives.follows form production.lhs rest rfl
    refine .inr ⟨vanishes, ?_⟩
    rcases tail.begins with ⟨rfl, gone⟩ | ⟨category, others, rfl, begins⟩
    · exact follows.2 gone _ (ahead ▸ .start)
    · exact follows.1 _ (ahead ▸ begins)
  · exact .inl (ahead ▸ begins)

/-- A non-terminal gives way to the body that the table holds. -/
theorem Continues.expand (faithful : table.Faithful grammar) (ll1 : grammar.IsLL1)
    (continues : grammar.Continues read (.nonterminal name :: rest) lookahead)
    {production : Production} (predicted : table.production? name lookahead = some production) :
    grammar.Continues read (production.body ++ rest) lookahead := by
  constructor
  · obtain ⟨form, derives, spells⟩ := continues.derived
    obtain ⟨member, rfl⟩ := faithful.listed _ _ _ predicted
    exact ⟨form, derives.trans (.single (.expand form rest member)), spells⟩
  · intro word ahead generated
    obtain ⟨chosen, found, produces⟩ := continues.chosen faithful ll1 ahead generated
    cases predicted.symm.trans found
    exact produces

theorem Continues.taken {category : Category} (next : Category)
    (continues : grammar.Continues read (.terminal name category :: rest) category) :
    grammar.Continues (read ++ [category]) rest next := by
  constructor
  · obtain ⟨form, derives, spells⟩ := continues.derived
    have last : Spells [.terminal name category] [category] := rfl
    exact ⟨form ++ [.terminal name category], by simpa using derives, spells.append last⟩
  · intro word _ generated
    obtain ⟨later, same, behind⟩ := (continues.covers (category :: word) rfl
      (by simpa using generated)).split
    cases same
    exact produces_of_reads behind

end Grammar

namespace Parser

variable {parser : Parser} {grammar : Grammar}

/-- Where a parse of some tokens stands: some are read, the others are still ahead, and the stack continues what is read. -/
structure Stands (grammar : Grammar) (tokens read rest : List Token) (current : Stack × ParseState) :
    Prop where
  split : tokens = read ++ rest
  ahead : Ahead (Token.atEnd tokens.length) rest current.2
  continues : grammar.Continues (read.map Token.category) (current.1.map Prod.snd)
    current.2.token.category

variable {tokens : List Token} {rest : List Token}

theorem Stands.step (faithful : parser.table.Faithful grammar) (ll1 : grammar.IsLL1)
    {read : List Token} {one other : Stack × ParseState}
    (stands : Stands grammar tokens read rest one) (step : parser.Steps one other) :
    ∃ read rest, Stands grammar tokens read rest other := by
  obtain ⟨split, ahead, continues⟩ := stands
  obtain ⟨stack, state⟩ := one
  obtain ⟨pending, ran⟩ := step
  have moves := parser.step_moves stack state
  rw [ran] at moves
  cases moves with
  | done => exact absurd rfl pending
  | matched id name below more requested =>
    cases rest with
    | nil =>
      rw [ahead.token_eq] at more
      cases more
    | cons head others =>
      rw [ahead.source_eq, tail_cons, request_listed] at requested
      cases requested
      have same : state.token = head := ahead.token_eq
      refine ⟨read ++ [head], others, by simp [split], ⟨rfl, rfl⟩, ?_⟩
      rw [map_append, ← same]
      exact continues.taken _
  | expanded id below predicted =>
    refine ⟨read, rest, split, ⟨ahead.token_eq, ahead.source_eq⟩, ?_⟩
    rw [map_append, map_snd_numbered]
    exact continues.expand faithful ll1 predicted

/-- Wherever a parse over an LL(1) grammar comes, the stack continues what is read. -/
theorem stands_of_reaches (faithful : parser.table.Faithful grammar) (ll1 : grammar.IsLL1)
    {current : Stack × ParseState} (reached : parser.Reaches (parser.opening tokens) current) :
    ∃ read rest, Stands grammar tokens read rest current := by
  induction reached with
  | refl =>
    refine ⟨[], tokens, rfl, ⟨rfl, rfl⟩, ?_⟩
    rw [show (parser.opening tokens).1.map Prod.snd = [.nonterminal grammar.start] by
      rw [← faithful.grammar_eq]; rfl]
    exact .start
  | tail _ step ih =>
    obtain ⟨read, rest, stands⟩ := ih
    exact stands.step faithful ll1 step

variable {final : Token}

theorem Ahead.remaining {state : ParseState} (ahead : Ahead final rest state)
    (ended : final.isEnd = true) (proper : ∀ token ∈ rest, token.isEnd = false)
    : Parser.remaining state = rest.length := by
  rw [Parser.remaining, ahead.token_eq, ahead.source_eq]
  cases rest with
  | nil => simp [ended]
  | cons head others => simp [proper head mem_cons_self]

theorem Ahead.unique {state : ParseState} (ended : final.isEnd = true)
    (proper : ∀ token ∈ tokens, token.isEnd = false) {read read' rest' : List Token}
    (one : Ahead final rest state) (other : Ahead final rest' state) (split : tokens = read ++ rest)
    (split' : tokens = read' ++ rest') : read' = read ∧ rest' = rest := by
  have length := one.remaining ended fun token member => proper token (by simp [split, member])
  have length' := other.remaining ended fun token member => proper token (by simp [split', member])
  exact append_inj' (split'.symm.trans split) (length'.symm.trans length)

/-- Where a parse stops: some tokens are matched, the others are still ahead, and no step leads on. -/
structure Stops (parser : Parser) (tokens read rest : List Token) (stack : Stack)
    (state : ParseState) : Prop where
  reached : parser.Reaches (parser.opening tokens) (stack, state)
  split : tokens = read ++ rest
  ahead : Ahead (Token.atEnd tokens.length) rest state
  stuck : ∀ next, ¬ parser.Steps (stack, state) next

/-- A syntax error as a failure of the parse. -/
def raise (parser : Parser) (error : Diagnostic) : Failure :=
  if parser.halting then .fault (.mismatch error) else .diagnostic error

theorem raise_injective : Function.Injective parser.raise := by
  intro one other same
  unfold raise at same
  split at same
  · cases same
    rfl
  · cases same
    rfl

/-- What is reported of the place where a parse stopped. -/
structure Reports (grammar : Grammar) (table : Table) (kind : Mismatch) (span : Span)
    (read : List Category) (stack : Stack) (stop : Token) : Prop where
  /-- What is read begins a text of the grammar. -/
  opens : grammar.Opens read
  /-- No text goes on with the token, or ends before the end of input. -/
  impossible : if stop.isEnd then ¬ grammar.Generates read
    else ¬ grammar.Opens (read ++ [stop.category])
  span_eq : span = stop.span
  leftoverStack : kind = .leftoverStack ↔ stop.isEnd = true
  leftoverInput : kind = .leftoverInput ↔ stop.isEnd = false ∧ stack = [] ∧ grammar.Generates read
  unexpectedToken : kind = .unexpectedToken ↔ stop.isEnd = false ∧ ∃ id name category below,
    stack = (id, .terminal name category) :: below ∧ category ≠ stop.category
  noProduction : kind = .noProduction ↔ stop.isEnd = false ∧ ∃ id name below,
    stack = (id, .nonterminal name) :: below ∧ table.production? name stop.category = none

/-- Why a stack cannot go on before a token, and which kind of mismatch that is. -/
inductive Refuses (table : Table) (stop : Token) : Stack → Mismatch → Prop where
  | terminal (id : Nat) (name : Text) {category : Category} (below : Stack)
      (other : stop.isEnd = false → category ≠ stop.category) :
      Refuses table stop ((id, .terminal name category) :: below)
        (if stop.isEnd then .leftoverStack else .unexpectedToken)
  | nonterminal (id : Nat) {name : Text} (below : Stack)
      (blank : table.production? name stop.category = none) :
      Refuses table stop ((id, .nonterminal name) :: below)
        (if stop.isEnd then .leftoverStack else .noProduction)
  | empty (more : stop.isEnd = false) : Refuses table stop [] .leftoverInput

variable {stack : Stack} {state : ParseState}

/-- A parse of listed tokens that fails where it ends reports why the stack cannot go on. -/
theorem Halts.refuses (ahead : Ahead final rest state) {failure : Failure}
    (halts : parser.Halts stack state (.error failure)) :
    ∃ kind expected, failure = parser.mismatch kind expected state.token ∧
      Refuses parser.table state.token stack kind := by
  cases halts with
  | leftover more => exact ⟨_, _, rfl, .empty more⟩
  | refused failed =>
    have moves := parser.step_moves stack state
    rw [failed] at moves
    cases moves with
    | ended id name category below ended =>
      exact ⟨_, name, by rw [if_pos ended], .terminal id name below (by simp [ended])⟩
    | unexpected id name below more other =>
      exact ⟨_, name, by simp [more], .terminal id name below fun _ => other.symm⟩
    | unread id name below more unread =>
      rw [ahead.source_eq, request_listed] at unread
      cases unread
    | refused id below blank => exact ⟨_, _, rfl, .nonterminal id below blank⟩

variable {read : List Category} {kind : Mismatch} {stop : Token}

theorem Refuses.not_generates (wellFormed : grammar.WellFormed)
    (faithful : parser.table.Faithful grammar) (ll1 : grammar.IsLL1) {word : List Category}
    (refuses : Refuses parser.table stop stack kind)
    (continues : grammar.Continues read (stack.map Prod.snd) stop.category)
    (ahead : word.headD Category.endOfInput = stop.category)
    : ¬ grammar.Generates (read ++ word) := by
  intro generated
  cases refuses with
  | @terminal id name category below other =>
    obtain ⟨later, rfl, -⟩ := (continues.covers word ahead generated).split
    -- A terminal of the grammar is never the end of input.
    obtain ⟨form, derives, -⟩ := continues.derived
    have proper := derives.unreserved wellFormed (by simp [Grammar.Unreserved]) name category (by simp)
    have same : category = stop.category := ahead
    refine other ?_ same
    rw [Token.isEnd, ← same, beq_eq_false_iff_ne]
    rintro rfl
    cases proper
  | nonterminal id below blank =>
    obtain ⟨production, found, -⟩ := continues.chosen faithful ll1 ahead generated
    cases blank.symm.trans found
  | empty more =>
    obtain rfl : word = [] := (continues.covers word ahead generated).split
    rw [Token.isEnd, ← ahead] at more
    cases more

theorem Refuses.reports (wellFormed : grammar.WellFormed) (faithful : parser.table.Faithful grammar)
    (ll1 : grammar.IsLL1) (productive : grammar.Productive)
    (refuses : Refuses parser.table stop stack kind)
    (continues : grammar.Continues read (stack.map Prod.snd) stop.category) :
    Reports grammar parser.table kind stop.span read stack stop := by
  have impossible : if stop.isEnd then ¬ grammar.Generates read
      else ¬ grammar.Opens (read ++ [stop.category]) := by
    split
    · next ended =>
      have isEnd : stop.category = Category.endOfInput := beq_iff_eq.mp ended
      have never : ¬ grammar.Generates (read ++ []) :=
        refuses.not_generates wellFormed faithful ll1 continues isEnd.symm
      rwa [append_nil] at never
    · rintro ⟨rest, generated⟩
      rw [append_assoc] at generated
      exact refuses.not_generates wellFormed faithful ll1 continues rfl generated
  have opens := continues.opens wellFormed productive
  cases refuses with
  | terminal | nonterminal =>
    refine ⟨opens, impossible, rfl, ?_, ?_, ?_, ?_⟩ <;> cases ended : stop.isEnd <;> simp_all
  | empty more =>
    obtain ⟨form, derives, spells⟩ := continues.derived
    have whole : grammar.Generates read := ⟨form, by simpa using derives, spells⟩
    refine ⟨opens, impossible, rfl, ?_, ?_, ?_, ?_⟩ <;> simp [more, whole]

end Parser

/--
A parse over a productive LL(1) grammar that is rejected stops at the first impossible token, and the error tells it.

The tokens matched begin a text of the grammar, with the token ahead they do not, and the error has its place and the kind of what stands on the stack.
-/
theorem rejected_at_first_impossible_token {grammar : Grammar} (loaded : grammar.Loaded)
    (ll1 : grammar.IsLL1) (productive : grammar.Productive) {registry : Registry}
    (fits : Table.Fits grammar registry) :
    ∃ table, Table.build (Analysis.ofGrammar grammar) registry = .ok table ∧
      ∀ (halting : Bool) (tokens : List Token) (kind : Mismatch) (expected found : Text) (span : Span),
        (∀ token ∈ tokens, token.category ≠ Category.endOfInput) →
        Parser.parse { table, halting } (.ofTokens tokens) =
          .error (Parser.raise { table, halting } (.grammarMismatch kind expected found span)) →
        (∃ read rest stack state, Parser.Stops { table, halting } tokens read rest stack state) ∧
        ∀ read rest stack state, Parser.Stops { table, halting } tokens read rest stack state →
          Parser.Reports grammar table kind span (read.map Token.category) stack
            (rest.headD (Token.atEnd tokens.length)) := by
  have wellFormed := loaded.wellFormed
  obtain ⟨table, built, faithful, -⟩ := Table.build_faithful wellFormed fits
  refine ⟨table, built, fun halting tokens kind expected found span proper rejected => ?_⟩
  have decided : Parser.parse { table, halting } (.ofTokens tokens) ≠ .error .endless :=
    Parser.parse_ne_endless wellFormed faithful (faithful.settles ll1) rfl
  obtain ⟨stack, state, reached, halts⟩ := (Parser.opening_halts tokens).resolve_left decided
  obtain ⟨read, rest, stands⟩ := Parser.stands_of_reaches faithful ll1 reached
  rw [rejected] at halts
  refine ⟨⟨read, rest, stack, state, reached, stands.split, stands.ahead, halts.stuck⟩, ?_⟩
  intro read' rest' stack' state' stops
  -- There is one place to stop, and what is ahead there tells what was read.
  cases Parser.eq_of_stuck stops.reached reached stops.stuck halts.stuck
  obtain ⟨rfl, rfl⟩ := stands.ahead.unique rfl
    (fun token member => beq_eq_false_iff_ne.mpr (proper token member)) stops.ahead stands.split
    stops.split
  obtain ⟨kind', expected', same, refuses⟩ := halts.refuses stands.ahead
  cases Parser.raise_injective same
  rw [← stands.ahead.token_eq]
  exact refuses.reports wellFormed faithful ll1 productive stands.continues

/-- A bracket that closes nothing is left over, though its non-terminal vanished before it. -/
theorem rejected_at_unopened_bracket : bracketGrammar.Loaded ∧ bracketGrammar.IsLL1 ∧
    bracketGrammar.Productive ∧ Table.Fits bracketGrammar {} ∧
    ∃ table, Table.build (Analysis.ofGrammar bracketGrammar) {} = .ok table ∧
      Parser.parse { table } (.ofTokens (Token.ofCategories [1, 2, 2])) =
        .error (.diagnostic (.grammarMismatch .leftoverInput "$" "\"2\" (<2>)" ⟨2, 3⟩)) ∧
      ∃ read rest stack state,
        Parser.Stops { table } (Token.ofCategories [1, 2, 2]) read rest stack state ∧
        bracketGrammar.Generates (read.map Token.category) ∧
        (rest.headD (Token.atEnd 3)).span = ⟨2, 3⟩ := by
  have loaded : bracketGrammar.Loaded := .built ((GrammarBuilder.Assembled.new "Brackets").extended
    rfl rfl |>.extended rfl rfl) (rfl : bracketRules.grammar = _)
  have ll1 : bracketGrammar.IsLL1 := (Analysis.isLL1_iff loaded.wellFormed).mp (by decide +kernel)
  have fits : Table.Fits bracketGrammar {} := by
    unfold Table.Fits
    decide +kernel
  have productive : bracketGrammar.Productive := by
    intro name listed
    obtain rfl : name = "S" := mem_singleton.mp listed
    have vanishing : (⟨1, "S", [Symbol.epsilon]⟩ : Production) ∈ bracketGrammar.productions := by decide
    exact ⟨[], [], Grammar.derives_body vanishing, rfl⟩
  have computed : (Table.build (Analysis.ofGrammar bracketGrammar) {}).toOption.map (fun table =>
      (Parser.parse { table } (.ofTokens (Token.ofCategories [1, 2, 2]))).map fun _ => ()) =
      some (.error (.diagnostic (.grammarMismatch .leftoverInput "$" "\"2\" (<2>)" ⟨2, 3⟩))) := by
    decide +kernel
  obtain ⟨table, built, stopped⟩ := rejected_at_first_impossible_token loaded ll1 productive fits
  have rejected : Parser.parse { table } (.ofTokens (Token.ofCategories [1, 2, 2])) =
      .error (.diagnostic (.grammarMismatch .leftoverInput "$" "\"2\" (<2>)" ⟨2, 3⟩)) := by
    rw [built] at computed
    cases parsed : Parser.parse { table } (.ofTokens (Token.ofCategories [1, 2, 2])) with
    | error failure => simpa [Except.toOption, parsed, Except.map] using computed
    | ok tree => simp [Except.toOption, parsed, Except.map] at computed
  obtain ⟨⟨read, rest, stack, state, stops⟩, reports⟩ :=
    stopped false _ _ _ _ _ (by decide) rejected
  have report := reports read rest stack state stops
  exact ⟨loaded, ll1, productive, fits, table, built, rejected, read, rest, stack, state, stops,
    (report.leftoverInput.mp rfl).2.2, report.span_eq.symm⟩

end ThreeAddress

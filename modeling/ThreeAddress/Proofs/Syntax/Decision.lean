import ThreeAddress.Proofs.Syntax.Soundness
import Mathlib.Data.List.TakeWhile

/-!
What a parser decides.

On a grammar that settles a parse always comes to an end, and on an LL(1) grammar it finds the one derivation of every text that has one.
-/

namespace ThreeAddress

open List

namespace Parser

/-- How many tokens can still be read. -/
def remaining (state : ParseState) : Nat :=
  state.source.readings.length + if state.token.isEnd then 0 else 1

theorem request_ok {source rest : TokenSource} {token : Token}
    (requested : request source = .ok (token, rest)) :
    rest.last = source.last ∧ (source.readings = [] ∧ token = source.last ∧ rest.readings = [] ∨
        source.readings.length = rest.readings.length + 1) := by
  obtain ⟨readings, last⟩ := source
  cases readings with
  | nil =>
    simp only [request, TokenSource.next, Except.ok.injEq, Prod.mk.injEq] at requested
    obtain ⟨rfl, rfl⟩ := requested
    exact ⟨rfl, .inl ⟨rfl, rfl, rfl⟩⟩
  | cons reading others =>
    obtain ⟨errors, outcome⟩ := reading
    cases outcome with
    | error cause => simp [request, TokenSource.next] at requested
    | ok found =>
      cases errors with
      | cons error more => simp [request, TokenSource.next] at requested
      | nil =>
        simp only [request, TokenSource.next, Except.ok.injEq, Prod.mk.injEq] at requested
        obtain ⟨rfl, rfl⟩ := requested
        exact ⟨rfl, .inr rfl⟩

theorem remaining_matched {state : ParseState} {token : Token} {source : TokenSource}
    (ended : state.source.last.isEnd = true) (more : state.token.isEnd = false)
    (requested : request state.source = .ok (token, source)) (id : Nat) (name : Text) :
    source.last.isEnd = true ∧ remaining (state.matched id name token source) < remaining state := by
  obtain ⟨same, taken⟩ := request_ok requested
  rw [← same] at ended
  refine ⟨ended, ?_⟩
  have here : remaining state = state.source.readings.length + 1 := by simp [remaining, more]
  have there : remaining (state.matched id name token source) =
      source.readings.length + if token.isEnd then 0 else 1 := rfl
  rw [here, there]
  rcases taken with ⟨empty, last, none⟩ | taken
  · -- Past all readings there is only the end of input.
    rw [same, ← last] at ended
    simp [ended, none]
  · split
    · omega
    · omega

variable {parser : Parser} {grammar : Grammar}

/-! Parses come to an end. -/

theorem mismatch_ne_endless (kind : Mismatch) (expected : Text) (token : Token) :
    parser.mismatch kind expected token ≠ .endless := by
  unfold mismatch
  split
  · simp
  · simp

theorem request_ne_endless (source : TokenSource) : request source ≠ .error .endless := by
  unfold request
  split
  · simp
  · simp
  · simp

theorem step_ne_endless (stack : Stack) (state : ParseState) :
    parser.step stack state ≠ .error .endless := by
  intro failed
  have moves := parser.step_moves stack state
  rw [failed] at moves
  generalize same : Failure.endless = failure at moves
  cases moves with
  | ended | unexpected | refused => exact mismatch_ne_endless _ _ _ same.symm
  | unread _ _ _ _ failed => exact request_ne_endless _ (same ▸ failed)

theorem breadth_pos (parser : Parser) : 0 < parser.breadth := Nat.succ_pos _

theorem length_body_lt {production : Production}
    (member : production ∈ parser.table.grammar.productions) :
    production.body.length < parser.breadth := by
  obtain ⟨before, after, split⟩ := append_of_mem member
  have whole : production.body.length ≤ production.rhs.length := by
    rcases production.body_cases with same | ⟨empty, -⟩
    · rw [same]
    · simp [empty]
  simp only [breadth, split, flatMap_append, flatMap_cons, length_append]
  omega

section Load

variable (parser) (lookahead : Category) (left : Nat)

/-- The height that a tree below a symbol does not exceed: the readings to come count as often as there are non-terminals, and until the next one the rank does. -/
noncomputable def height : Symbol → Nat
  | .terminal .. => 0
  | .nonterminal name => left * parser.table.names.length + parser.table.rank lookahead name + 1

open Classical in
/-- What some symbols weigh on the stack. Behind a symbol that does not vanish before the lookahead there is one reading less to come. -/
noncomputable def load : List Symbol → Nat
  | [] => 0
  | symbol :: rest =>
    parser.breadth ^ parser.height lookahead left symbol +
      if parser.table.Stalls lookahead symbol then load rest
      else rest.length * parser.breadth ^ (left * parser.table.names.length)

variable {parser}

open Classical in
theorem load_append (front back : List Symbol) :
    parser.load lookahead left (front ++ back) = parser.load lookahead left front +
      if ∀ symbol ∈ front, parser.table.Stalls lookahead symbol then parser.load lookahead left back
      else back.length * parser.breadth ^ (left * parser.table.names.length) := by
  induction front with
  | nil => simp [load]
  | cons symbol rest ih =>
    rw [cons_append, load, load, ih]
    by_cases stalls : parser.table.Stalls lookahead symbol
    · simp [stalls, Nat.add_assoc]
    · simp [stalls, Nat.add_mul, Nat.add_assoc]

/-- The symbols that stand before the lookahead bound the weight of all. -/
theorem load_le {bound : Nat} (late : left * parser.table.names.length ≤ bound)
    (symbols : List Symbol) (below : ∀ front symbol back, symbols = front ++ symbol :: back →
      (∀ earlier ∈ front, parser.table.Stalls lookahead earlier) →
      parser.height lookahead left symbol ≤ bound) :
    parser.load lookahead left symbols ≤ symbols.length * parser.breadth ^ bound := by
  induction symbols with
  | nil => simp [load]
  | cons symbol rest ih =>
    have here := Nat.pow_le_pow_right parser.breadth_pos (below [] symbol rest rfl (by simp))
    rw [load, length_cons, Nat.add_mul, Nat.one_mul, Nat.add_comm]
    split
    · next stalls =>
      refine Nat.add_le_add (ih fun front later back split stalled => ?_) here
      exact below (symbol :: front) later back (by simp [split])
        (forall_mem_cons.mpr ⟨stalls, stalled⟩)
    · exact Nat.add_le_add (Nat.mul_le_mul_left _ (Nat.pow_le_pow_right parser.breadth_pos late)) here

end Load

section Settled

variable (wellFormed : grammar.WellFormed) (faithful : parser.table.Faithful grammar)
  (settles : parser.table.Settles)

/-- The non-terminals on a stack have rows. -/
def Known (parser : Parser) (stack : Stack) : Prop :=
  ∀ name, .nonterminal name ∈ stack.map Prod.snd → name ∈ parser.table.names

include settles in
theorem load_matched {state later : ParseState} {rest : Stack} (id : Nat) (name : Text)
    (category : Category) (known : parser.Known rest) (fewer : remaining later < remaining state) :
    parser.load later.token.category (remaining later) (rest.map Prod.snd) <
      parser.load state.token.category (remaining state)
        (((id, .terminal name category) :: rest).map Prod.snd) := by
  have step := Nat.mul_le_mul_right parser.table.names.length fewer
  rw [Nat.succ_mul] at step
  -- The reading that is gone pays for the rank of every symbol left.
  have late : remaining later * parser.table.names.length ≤
      remaining state * parser.table.names.length := by omega
  have light := load_le later.token.category (remaining later) late (rest.map Prod.snd) (by
      intro front symbol back split _
      cases symbol with
      | terminal => exact Nat.zero_le _
      | nonterminal name =>
        have rank := settles.rank_lt_length later.token.category (known name (by simp [split]))
        rw [height]
        omega)
  have stays : ¬ parser.table.Stalls state.token.category (.terminal name category) := by
    intro stalls
    cases stalls
  rw [map_cons, load, if_neg stays, height, Nat.pow_zero]
  omega

include wellFormed faithful settles in
theorem load_expanded {state : ParseState} (id : Nat) (rest : Stack) {name : Text}
    {production : Production}
    (predicted : parser.table.production? name state.token.category = some production) :
    parser.load state.token.category (remaining state)
        ((numbered production state ++ rest).map Prod.snd) <
      parser.load state.token.category (remaining state)
        (((id, .nonterminal name) :: rest).map Prod.snd) := by
  classical
  obtain ⟨member, -⟩ := faithful.listed _ _ _ predicted
  have vanish : parser.table.Stalls state.token.category (.nonterminal name) ↔
      ∀ symbol ∈ production.body, parser.table.Stalls state.token.category symbol := by
    constructor
    · rintro ⟨found, inside⟩
      cases predicted.symm.trans found
      exact inside
    · exact .expand predicted
  -- A descent goes down in rank, and what stands behind the lookahead is lower anyway.
  have light := load_le state.token.category (remaining state)
    (Nat.le_add_right _ (parser.table.rank state.token.category name)) production.body (by
      intro front symbol back split stalled
      cases symbol with
      | terminal => exact Nat.zero_le _
      | nonterminal inner =>
        have listed : inner ∈ parser.table.names := by
          rw [faithful.names_eq]
          exact wellFormed.mem_nonterminals.mpr
            (wellFormed.defined production member inner (by simp [split]))
        have rank := settles.rank_lt listed ⟨production, front, back, predicted, split, stalled⟩
        rw [height]
        omega)
  rw [map_append, map_snd_numbered, load_append, map_cons, load, height, Nat.pow_succ']
  simp only [vanish]
  refine Nat.add_lt_add_right (Nat.lt_of_le_of_lt light ?_) _
  exact Nat.mul_lt_mul_of_pos_right (length_body_lt (faithful.grammar_eq ▸ member))
    (Nat.pow_pos parser.breadth_pos)

include wellFormed faithful settles in
theorem run_ne_endless {bound : Nat} {stack : Stack} {state : ParseState}
    (ended : state.source.last.isEnd = true) (known : parser.Known stack)
    (enough : parser.load state.token.category (remaining state) (stack.map Prod.snd) ≤ bound) :
    parser.run bound stack state ≠ .error .endless := by
  induction bound generalizing stack state with
  | zero =>
    cases stack with
    | nil => simp [run_nil]
    | cons entry rest =>
      have positive : 0 < parser.breadth ^ parser.height state.token.category (remaining state)
        entry.2 := Nat.pow_pos parser.breadth_pos
      rw [map_cons, load] at enough
      omega
  | succ bound ih =>
    cases stack with
    | nil => simp [run_nil]
    | cons entry rest =>
      have fails := parser.step_ne_endless (entry :: rest) state
      have moves := parser.step_moves (entry :: rest) state
      rw [run_cons]
      generalize parser.step (entry :: rest) state = result at moves fails ⊢
      cases moves with
      | ended | unexpected | unread | refused => simpa using fails
      | matched id name _ more requested =>
        obtain ⟨still, fewer⟩ := remaining_matched ended more requested id name
        have behind : parser.Known rest := fun name found => known name (mem_cons_of_mem _ found)
        have lighter := load_matched settles id name state.token.category behind fewer
        exact ih still behind (Nat.le_of_lt_succ (Nat.lt_of_lt_of_le lighter enough))
      | @expanded id name _ production predicted =>
        have lighter := load_expanded wellFormed faithful settles id rest predicted
        refine ih ended ?_ (Nat.le_of_lt_succ (Nat.lt_of_lt_of_le lighter enough))
        obtain ⟨member, -⟩ := faithful.listed _ _ _ predicted
        intro inner found
        rw [map_append, map_snd_numbered] at found
        rcases mem_append.mp found with new | old
        · rw [faithful.names_eq]
          exact wellFormed.mem_nonterminals.mpr (wellFormed.defined production member inner new)
        · exact known inner (mem_cons_of_mem _ old)

end Settled

theorem build_ne_endless (wellFormed : grammar.WellFormed)
    (faithful : parser.table.Faithful grammar) (settles : parser.table.Settles)
    {source : TokenSource} (ended : source.last.isEnd = true) :
    parser.build source ≠ .error .endless := by
  cases requested : request source with
  | error failure => simpa [build, requested, bind, Except.bind] using request_ne_endless source
  | ok read =>
    obtain ⟨token, rest⟩ := read
    obtain ⟨last, taken⟩ := request_ok requested
    have listed : parser.table.grammar.start ∈ parser.table.names := by
      rw [faithful.names_eq, faithful.grammar_eq]
      exact wellFormed.mem_nonterminals.mpr wellFormed.started
    have fewer : remaining (parser.initial token rest).2 ≤ source.readings.length := by
      show rest.readings.length + (if token.isEnd then 0 else 1) ≤ _
      rcases taken with ⟨-, rfl, none⟩ | taken
      · simp [ended, none]
      · split
        · omega
        · omega
    have decided : parser.run (parser.stepBound source) (parser.initial token rest).1
        (parser.initial token rest).2 ≠ .error .endless := by
      refine run_ne_endless wellFormed faithful settles (by rw [← ended, ← last]; rfl) ?_ ?_
      · intro name found
        cases mem_singleton.mp found
        exact listed
      · -- A tree for the start symbol is as high as the bound allows.
        have rank := settles.rank_lt_length token.category listed
        have product := Nat.mul_le_mul_right parser.table.names.length fewer
        show parser.load token.category _ [.nonterminal parser.table.grammar.start] ≤ _
        simp only [load, length_nil, Nat.zero_mul, ite_self, Nat.add_zero, height, stepBound]
        refine Nat.pow_le_pow_right parser.breadth_pos ?_
        simp only [depthBound, Nat.add_mul, Nat.one_mul]
        omega
    rw [parser.build_requested requested]
    cases ran : parser.run (parser.stepBound source) (parser.initial token rest).1
        (parser.initial token rest).2 with
    | error failure => simpa [ran] using decided
    | ok last =>
      simp only
      split
      · simp
      · simpa using mismatch_ne_endless _ _ _

theorem parse_ne_endless (wellFormed : grammar.WellFormed)
    (faithful : parser.table.Faithful grammar) (settles : parser.table.Settles)
    {source : TokenSource} (ended : source.last.isEnd = true) :
    parser.parse source ≠ .error .endless := by
  intro endless
  rcases build_cases parser source with ⟨failure, built, failed⟩ | ⟨_, _, _, _, -, -, parsed, -⟩
  · cases endless.symm.trans failed
    exact build_ne_endless wellFormed faithful settles ended built
  · cases endless.symm.trans parsed

/-! Texts with a derivation are parsed. -/

section Complete

variable {final : Token} {rest : List Token} {tree : SyntaxTree}

/-- Behind every tree stands what may follow its symbol: a token of the trees behind it, or of those left. -/
def Followed (grammar : Grammar) (final : Token) (rest : List Token) : List SyntaxTree → Prop
  | [] => True
  | tree :: others =>
    (∀ name, SyntaxTree.symbol tree = .nonterminal name → grammar.Follows name
      ((others.flatMap SyntaxTree.tokens ++ rest).headD final).category) ∧
    Followed grammar final rest others

theorem Followed.children {production : Production} (member : production ∈ grammar.productions)
    {id : Nat} {children others : List SyntaxTree}
    (symbols : children.map SyntaxTree.symbol = production.body)
    (below : ∀ child ∈ children, grammar.IsDerivation child)
    (followed : Followed grammar final rest
      (.node id { symbol := .nonterminal production.lhs } children :: others)) :
    Followed grammar final rest (children ++ others) := by
  obtain ⟨follows, later⟩ := followed
  -- The trees are taken one by one, with those in front of them in the body put aside.
  have each : ∀ back front, children = front ++ back → Followed grammar final rest (back ++ others) := by
    intro back
    induction back with
    | nil => exact fun _ _ => later
    | cons tree back ih =>
      intro front split
      refine ⟨fun name same => ?_, ih (front ++ [tree]) (by simp [split])⟩
      have placed : production.body = front.map SyntaxTree.symbol ++
          .nonterminal name :: back.map SyntaxTree.symbol := by
        simp [← symbols, split, same]
      have behind : ∀ tree ∈ back, grammar.IsDerivation tree := fun tree found =>
        below tree (by simp [split, found])
      rw [append_eq, flatMap_append, append_assoc]
      cases read : back.flatMap SyntaxTree.tokens with
      | nil =>
        exact .last member placed (Grammar.runVanishes_of_forest behind read) (follows _ rfl)
      | cons token others =>
        exact .beside member placed (Grammar.runBegins_of_forest behind read)
  exact each children [] rfl

/-- Derivations for the symbols on a stack, the tokens of which are ahead. -/
structure Foresees (grammar : Grammar) (final : Token) (rest : List Token)
    (forest : List SyntaxTree) (stack : Stack) (state : ParseState) : Prop where
  symbols : forest.map SyntaxTree.symbol = stack.map Prod.snd
  derivations : ∀ tree ∈ forest, grammar.IsDerivation tree
  proper : ∀ token ∈ forest.flatMap SyntaxTree.tokens, token.isEnd = false
  ahead : Ahead final (forest.flatMap SyntaxTree.tokens ++ rest) state
  followed : Followed grammar final rest forest

theorem Foresees.nothing {bound : Nat} {forest : List SyntaxTree} {state : ParseState}
    (foresees : Foresees grammar final rest forest [] state) :
    ∃ trees last, parser.run bound [] state = .ok last ∧ parser.Grows [] state trees last ∧
      trees.map Tree.unnumbered = forest.map Tree.unnumbered ∧ Ahead final rest last := by
  obtain rfl : forest = [] := map_eq_nil_iff.mp foresees.symbols
  exact ⟨[], state, run_nil bound state, .done state, rfl, foresees.ahead⟩

/-- On an LL(1) grammar the steps of a parser follow every derivation for the symbols on its stack, unless there are too many of them. -/
theorem run_complete (faithful : parser.table.Faithful grammar) (ll1 : grammar.IsLL1) (bound : Nat)
    {forest : List SyntaxTree} {stack : Stack} {state : ParseState}
    (foresees : Foresees grammar final rest forest stack state) :
    parser.run bound stack state = .error .endless ∨
      ∃ trees last, parser.run bound stack state = .ok last ∧ parser.Grows stack state trees last ∧
        trees.map Tree.unnumbered = forest.map Tree.unnumbered ∧ Ahead final rest last := by
  induction bound generalizing forest stack state with
  | zero =>
    cases stack with
    | nil => exact .inr foresees.nothing
    | cons entry below => exact .inl rfl
  | succ bound ih =>
    cases stack with
    | nil => exact .inr foresees.nothing
    | cons entry below =>
      obtain ⟨symbols, derivations, proper, ahead, followed⟩ := foresees
      obtain ⟨tree, others, rfl, isSymbol, isRest⟩ := map_eq_cons_iff.mp symbols
      obtain ⟨number, symbol⟩ := entry
      obtain ⟨derivation, later⟩ := forall_mem_cons.mp derivations
      rw [flatMap_cons] at proper ahead
      rw [run_cons]
      rcases derivation.cases with ⟨id, name, token, rfl⟩ |
        ⟨id, production, member, children, rfl, body, inside⟩
      · -- The token of a leaf is the current one.
        cases isSymbol
        rw [SyntaxTree.tokens_leaf] at proper ahead
        obtain rfl : state.token = token := ahead.token_eq
        have more := proper state.token mem_cons_self
        have requested : request state.source = _ :=
          ahead.source_eq ▸ request_listed final (others.flatMap SyntaxTree.tokens ++ rest)
        have onward : Foresees grammar final rest others below (state.matched number name _ _) :=
          ⟨isRest, later, fun token found => proper token (mem_cons_of_mem _ found), ⟨rfl, rfl⟩,
            followed.2⟩
        rw [step_terminal number name below more, requested]
        rcases ih onward with endless | ⟨trees, last, ran, grows, equal, left⟩
        · exact .inl endless
        · refine .inr ⟨_, last, ran, .matched number name more requested grows, ?_, left⟩
          rw [map_cons, map_cons, Tree.unnumbered_node, Tree.unnumbered_node, equal]
      · -- The production of the tree is predicted: by its first token, or by what follows it.
        cases isSymbol
        rw [SyntaxTree.tokens_node _ _ rfl] at proper ahead
        have predicts : grammar.Predicts production state.token.category := by
          rw [Grammar.predicts_iff, ← body, ahead.token_eq]
          cases read : children.flatMap SyntaxTree.tokens with
          | nil => exact .inr ⟨Grammar.runVanishes_of_forest inside read, followed.1 _ rfl⟩
          | cons token others => exact .inl (Grammar.runBegins_of_forest inside read)
        have predicted := faithful.production?_eq ll1 member predicts
        have onward : Foresees grammar final rest (children ++ others)
            (numbered production state ++ below) (state.expanded number production) := by
          refine ⟨?_, forall_mem_append.mpr ⟨inside, later⟩, ?_, ?_,
            followed.children member body inside⟩
          · rw [map_append, map_append, map_snd_numbered, body, isRest]
          · rwa [flatMap_append]
          · rw [flatMap_append]
            exact ⟨ahead.token_eq, ahead.source_eq⟩
        rw [step_expand number predicted]
        rcases ih onward with endless | ⟨trees, last, ran, grows, equal, left⟩
        · exact .inl endless
        · rw [map_append] at equal
          obtain ⟨found, behind, rfl, areChildren, areOthers⟩ := map_eq_append_iff.mp equal
          have many : found.length = production.body.length := by
            rw [← body, length_map, ← length_map Tree.unnumbered, areChildren, length_map]
          refine .inr ⟨_, last, ran, .expanded number predicted many grows, ?_, left⟩
          rw [map_cons, map_cons, Tree.unnumbered_node, Tree.unnumbered_node, areChildren,
            areOthers]

/-- On an LL(1) grammar every derivation from the start symbol is the parse of its tokens up to the end of input, apart from the numbers of its nodes. -/
theorem parse_complete_before (wellFormed : grammar.WellFormed)
    (faithful : parser.table.Faithful grammar) (ll1 : grammar.IsLL1)
    (derivation : grammar.IsDerivation tree)
    (root : SyntaxTree.symbol tree = .nonterminal grammar.start)
    (proper : ∀ token ∈ SyntaxTree.tokens tree, token.isEnd = false) {rest : List Token}
    (ended : final.isEnd = true) (stops : (rest.headD final).isEnd = true) :
    ∃ found, parser.parse ⟨(SyntaxTree.tokens tree ++ rest).map fun token =>
        { outcome := .ok token }, final⟩ = .ok found ∧
      found.unnumbered = tree.unnumbered := by
  have isEnd : (rest.headD final).category = Category.endOfInput := by
    simpa [Token.isEnd] using stops
  obtain ⟨token, source, requested, ahead⟩ : ∃ token source,
      request ⟨(SyntaxTree.tokens tree ++ rest).map fun token => { outcome := .ok token }, final⟩ =
        .ok (token, source) ∧
      Ahead final (SyntaxTree.tokens tree ++ rest) (parser.initial token source).2 :=
    ⟨_, _, request_listed final _, rfl, rfl⟩
  have foresees : Foresees grammar final rest [tree] (parser.initial token source).1
      (parser.initial token source).2 := by
    refine ⟨?_, by simpa using derivation, by simpa using proper, by simpa using ahead, ?_, trivial⟩
    · rw [map_singleton, root, ← faithful.grammar_eq]
      rfl
    · intro name same
      obtain rfl := Symbol.nonterminal.inj (root.symm.trans same)
      rw [flatMap_nil, nil_append, isEnd]
      exact .start
  have decided : parser.build ⟨(SyntaxTree.tokens tree ++ rest).map fun token =>
      { outcome := .ok token }, final⟩ ≠ .error .endless :=
    build_ne_endless wellFormed faithful (faithful.settles ll1) ended
  have built := parser.build_requested requested
  rcases run_complete faithful ll1 (parser.stepBound _) foresees with endless | ⟨trees, last, ran, grows, equal, left⟩
  · rw [endless] at built
    exact absurd built decided
  · obtain ⟨grown, rfl, shown⟩ := grows.shows
    have isLast : last.token.isEnd = true := by rw [left.token_eq, stops]
    simp only [ran, if_pos isLast] at built
    obtain ⟨found, parsed, shows⟩ := parse_built built
    obtain rfl : found = grown := Except.ok.inj (shows.tree_eq.symm.trans shown.tree_eq)
    exact ⟨found, parsed, by simpa using equal⟩

theorem parse_complete (wellFormed : grammar.WellFormed) (faithful : parser.table.Faithful grammar)
    (ll1 : grammar.IsLL1) (derivation : grammar.IsDerivation tree)
    (root : SyntaxTree.symbol tree = .nonterminal grammar.start)
    (proper : ∀ token ∈ SyntaxTree.tokens tree, token.isEnd = false) :
    ∃ found, parser.parse (.ofTokens (SyntaxTree.tokens tree)) = .ok found ∧
      found.unnumbered = tree.unnumbered := by
  have ended : (Token.atEnd (SyntaxTree.tokens tree).length).isEnd = true := rfl
  have found := @parse_complete_before parser grammar _ tree wellFormed faithful ll1 derivation root
    proper [] ended ended
  rwa [append_nil] at found

end Complete

end Parser

/-- A parser over the table of an LL(1) grammar comes to an end on every list of tokens, accepts exactly the derivable ones, and returns their only derivation tree. -/
theorem parse_decides_language {grammar : Grammar} {registry : Registry}
    (assembled : grammar.Assembled) (ll1 : grammar.IsLL1) (fits : Table.Fits grammar registry) :
    ∃ table, Table.build (Analysis.ofGrammar grammar) registry = .ok table ∧
      ∀ (halting : Bool) (tokens : List Token),
        (∀ token ∈ tokens, token.category ≠ Category.endOfInput) →
        Parser.parse { table, halting } (.ofTokens tokens) ≠ .error .endless ∧
        ((∃ tree, Parser.parse { table, halting } (.ofTokens tokens) = .ok tree) ↔
          grammar.Generates (tokens.map Token.category)) ∧
        ∀ tree, Parser.parse { table, halting } (.ofTokens tokens) = .ok tree →
          (grammar.IsDerivation tree ∧ SyntaxTree.symbol tree = .nonterminal grammar.start ∧
            SyntaxTree.tokens tree = tokens) ∧
          ∀ other, grammar.IsDerivation other →
            SyntaxTree.symbol other = .nonterminal grammar.start →
            SyntaxTree.tokens other = tokens → other.unnumbered = tree.unnumbered := by
  have wellFormed := assembled.wellFormed
  obtain ⟨table, built, faithful, -⟩ := Table.build_faithful wellFormed fits
  refine ⟨table, built, ?_⟩
  intro halting tokens unended
  have proper : ∀ token ∈ tokens, token.isEnd = false := by
    intro token member
    simpa [Token.isEnd] using unended token member
  have whole : (tokens.takeWhile fun token => !token.isEnd) = tokens :=
    takeWhile_eq_self_iff.mpr (by simpa using proper)
  have sound : ∀ tree, Parser.parse { table, halting } (.ofTokens tokens) = .ok tree →
      grammar.IsDerivation tree ∧ SyntaxTree.symbol tree = .nonterminal grammar.start ∧
        SyntaxTree.tokens tree = tokens := by
    intro tree parsed
    obtain ⟨root, derivation, read⟩ := Parser.parse_ok faithful parsed
    exact ⟨derivation, root, read.trans whole⟩
  have complete : ∀ tree, grammar.IsDerivation tree →
      SyntaxTree.symbol tree = .nonterminal grammar.start → SyntaxTree.tokens tree = tokens →
      ∃ found, Parser.parse { table, halting } (.ofTokens tokens) = .ok found ∧
        found.unnumbered = tree.unnumbered := by
    rintro tree derivation root rfl
    exact Parser.parse_complete wellFormed faithful ll1 derivation root proper
  refine ⟨Parser.parse_ne_endless wellFormed faithful (faithful.settles ll1) rfl, ?_, ?_⟩
  · rw [Grammar.generates_iff]
    constructor
    · rintro ⟨tree, parsed⟩
      exact ⟨tree, sound tree parsed⟩
    · rintro ⟨tree, derivation, root, read⟩
      obtain ⟨found, parsed, -⟩ := complete tree derivation root read
      exact ⟨found, parsed⟩
  · intro tree parsed
    refine ⟨sound tree parsed, ?_⟩
    intro other derivation root read
    obtain ⟨found, again, same⟩ := complete other derivation root read
    obtain rfl : tree = found := Except.ok.inj (parsed.symm.trans again)
    exact same.symm

/-- Brackets in pairs, nested or side by side. -/
def bracketRules : GrammarBuilder := ((GrammarBuilder.mk "Brackets" [] []).add
    "S" [.terminal "(" 1, .nonterminal "S", .terminal ")" 2, .nonterminal "S"]).add
    "S" []

/-- The grammar of brackets, which is LL(1). -/
def bracketGrammar : Grammar := ⟨"Brackets", "S", bracketRules.productions⟩

/-- Brackets in pairs are derivable and accepted, and a bracket that stays open is neither. -/
theorem parse_decides_brackets : bracketGrammar.Assembled ∧ bracketGrammar.IsLL1 ∧
    Table.Fits bracketGrammar {} ∧
    bracketGrammar.Generates [1, 1, 2, 2, 1, 2] ∧ ¬ bracketGrammar.Generates [1, 1, 2] := by
  have assembled : bracketGrammar.Assembled :=
    ⟨bracketRules, (GrammarBuilder.Assembled.new "Brackets").extended rfl rfl
      |>.extended rfl rfl, rfl⟩
  have ll1 : bracketGrammar.IsLL1 :=
    (Analysis.isLL1_iff assembled.wellFormed).mp (by decide +kernel)
  have fits : Table.Fits bracketGrammar {} := by
    unfold Table.Fits
    decide +kernel
  have answers : ((Table.build (Analysis.ofGrammar bracketGrammar) {}).toOption.map
      fun table => ([[1, 1, 2, 2, 1, 2], [1, 1, 2]].map fun categories =>
        (Parser.parse { table } (.ofTokens (Token.ofCategories categories))).isOk)) =
      some [true, false] := by
    decide +kernel
  obtain ⟨table, built, decides⟩ := parse_decides_language assembled ll1 fits
  rw [built] at answers
  simp only [Except.toOption, Option.map_some, map_cons, map_nil, Option.some.injEq,
    List.cons.injEq, and_true] at answers
  have accepted := (decides false (Token.ofCategories [1, 1, 2, 2, 1, 2]) (by decide)).2.1
  have refused := (decides false (Token.ofCategories [1, 1, 2]) (by decide)).2.1
  refine ⟨assembled, ll1, fits, accepted.mp ?_, fun generated => ?_⟩
  · cases parsed : Parser.parse { table } (.ofTokens (Token.ofCategories [1, 1, 2, 2, 1, 2])) with
    | error failure => simp [parsed, Except.isOk, Except.toBool] at answers
    | ok tree => exact ⟨tree, rfl⟩
  · obtain ⟨tree, parsed⟩ := refused.mpr generated
    simp [parsed, Except.isOk, Except.toBool] at answers

end ThreeAddress

import ThreeAddress.Proofs.Syntax.Growth

/-!
What a parser returns.

A parse goes on step by step, and a successful one gives the derivation that its arena shows and reads exactly the tokens of that tree.
-/

namespace ThreeAddress

open List

namespace Parser

/-- One state comes from another by reading tokens, none of which is the end of input. -/
inductive Reads : ParseState → List Token → ParseState → Prop where
  | nothing {state after : ParseState} (token : after.token = state.token)
      (source : after.source = state.source) : Reads state [] after
  | token {state next after : ParseState} {tokens : List Token}
      (more : state.token.isEnd = false)
      (requested : request state.source = .ok (next.token, next.source))
      (reads : Reads next tokens after) : Reads state (state.token :: tokens) after

variable {after state : ParseState} {name : Text} {tree : SyntaxTree} {tokens : List Token}

/-- Reading some tokens does not depend on the numbers given to nodes. -/
theorem Reads.renumbered {other : ParseState} (reads : Reads state tokens after)
    (token : other.token = state.token) (source : other.source = state.source)
    : Reads other tokens after := by
  cases reads with
  | nothing same behind => exact .nothing (same.trans token.symm) (behind.trans source.symm)
  | token more requested reads =>
    rw [← token] at more ⊢
    rw [← source] at requested
    exact .token more requested reads

/-- What deriving a symbol gives: a derivation of it, whose tokens were read. -/
structure Derived (grammar : Grammar) (symbol : Symbol) (state : ParseState) (tree : SyntaxTree)
    (after : ParseState) : Prop where
  symbol_eq : SyntaxTree.symbol tree = symbol
  derivation : grammar.IsDerivation tree
  reads : Reads state (SyntaxTree.tokens tree) after

variable {parser : Parser} {grammar : Grammar} {stack : Stack} {trees : List SyntaxTree}

/-- The tokens of trees that grow are read one after the other. -/
theorem Grows.reads (grows : parser.Grows stack state trees after) :
    Reads state (trees.flatMap SyntaxTree.tokens) after := by
  induction grows with
  | done => exact .nothing rfl rfl
  | matched id name more requested _ ih =>
    rw [flatMap_cons, SyntaxTree.tokens_leaf]
    exact .token more requested ih
  | expanded id _ _ _ ih =>
    rw [flatMap_append] at ih
    rw [flatMap_cons, SyntaxTree.tokens_node _ _ rfl]
    exact ih.renumbered rfl rfl

theorem Grows.derivations (faithful : parser.table.Faithful grammar)
    (grows : parser.Grows stack state trees after) : ∀ tree ∈ trees, grammar.IsDerivation tree := by
  induction grows with
  | done => simp
  | matched id name _ _ _ ih =>
    exact forall_mem_cons.mpr ⟨Grammar.isDerivation_terminal id name rfl, ih⟩
  | @expanded id name rest state _ production children _ predicted many behind ih =>
    obtain ⟨member, rfl⟩ := faithful.listed _ _ _ predicted
    obtain ⟨below, others⟩ := forall_mem_append.mp ih
    -- The children stand for the symbols of the body that was predicted.
    have symbols := congrArg (List.map Prod.snd) (behind.children many)
    rw [map_map, map_snd_numbered] at symbols
    exact forall_mem_cons.mpr
      ⟨Grammar.isDerivation_nonterminal id member symbols below, others⟩

/-! Sources that hold a list of tokens. -/

/-- A state in which some tokens are still ahead, and then the final one again and again. -/
structure Ahead (final : Token) (tokens : List Token) (state : ParseState) : Prop where
  token_eq : state.token = tokens.headD final
  source_eq : state.source = ⟨tokens.tail.map fun token => { outcome := .ok token }, final⟩

theorem request_listed (final : Token) (tokens : List Token) :
    request ⟨tokens.map fun token => { outcome := .ok token }, final⟩ =
      .ok (tokens.headD final, ⟨tokens.tail.map fun token => { outcome := .ok token }, final⟩) := by
  cases tokens with
  | nil => rfl
  | cons token rest => rfl

theorem Reads.ahead {final : Token} (ended : final.isEnd = true) {read : List Token}
    (reads : Reads state read after) : ∀ {tokens : List Token},
    Ahead final tokens state → (∀ token ∈ read, token.isEnd = false) ∧
      ∃ rest, tokens = read ++ rest ∧ Ahead final rest after := by
  induction reads with
  | nothing token source =>
    intro tokens stands
    exact ⟨by simp, tokens, rfl, token.trans stands.token_eq, source.trans stands.source_eq⟩
  | @token state next after read more requested _ ih =>
    intro tokens stands
    cases tokens with
    | nil =>
      rw [stands.token_eq] at more
      simp [ended] at more
    | cons head others =>
      rw [stands.source_eq, tail_cons, request_listed] at requested
      simp only [Except.ok.injEq, Prod.mk.injEq] at requested
      obtain ⟨proper, rest, split, behind⟩ := ih ⟨requested.1.symm, requested.2.symm⟩
      have same : state.token = head := stands.token_eq
      refine ⟨?_, rest, by rw [same, split, cons_append], behind⟩
      intro found member
      rcases mem_cons.mp member with rfl | inside
      · exact more
      · exact proper found inside

/-! From the first token to the end of input. -/

variable {source rest : TokenSource} {token : Token}

theorem build_requested (requested : request source = .ok (token, rest)) : parser.build source =
    match parser.run (parser.stepBound source) (parser.initial token rest).1
      (parser.initial token rest).2 with
    | .error failure => .error failure
    | .ok last =>
      if last.token.isEnd then .ok last.arena
      else .error (parser.mismatch .leftoverInput
        (parser.table.registry.nameOf Category.endOfInput) last.token) := by
  simp only [build, requested, bind, Except.bind]
  cases parser.run (parser.stepBound source) (parser.initial token rest).1
    (parser.initial token rest).2 <;> rfl

/-- From the start symbol one tree grows, and the arena that is left shows it. -/
theorem Grows.shows
    (grows : parser.Grows (parser.initial token rest).1 (parser.initial token rest).2 trees after) :
    ∃ tree, trees = [tree] ∧ Site.Shows ⟨after.arena, 0, 0⟩ tree := by
  have sprouts := Sprouts.initial parser token rest
  obtain ⟨tree, rfl, isRoot⟩ := map_eq_singleton_iff.mp grows.roots
  have root : tree.id = 0 := congrArg Prod.fst isRoot
  have holds := grows.holds sprouts tree mem_cons_self
  obtain ⟨consistent, later, top, -, -⟩ := grows.sprouts sprouts
  refine ⟨tree, rfl, root.symm, holds, consistent.linked_of_holds holds, ?_, root ▸ top⟩
  exact consistent.nodup_ids (Arena.acyclic_of_later later tree.id) .refl holds

theorem parse_failed {failure : Failure} (failed : parser.build source = .error failure)
    : parser.parse source = .error failure := by
  simp [parse, failed, bind, Except.bind]

/-- A parse gives the tree that its arena shows, or fails as the making of the arena does. -/
theorem build_cases (parser : Parser) (source : TokenSource) :
    (∃ failure, parser.build source = .error failure ∧ parser.parse source = .error failure) ∨
      ∃ token rest last tree, request source = .ok (token, rest) ∧
        parser.build source = .ok last.arena ∧ parser.parse source = .ok tree ∧
        parser.Grows (parser.initial token rest).1 (parser.initial token rest).2 [tree] last ∧
        Site.Shows ⟨last.arena, 0, 0⟩ tree ∧ last.token.isEnd = true := by
  cases built : parser.build source with
  | error failure => exact .inl ⟨failure, rfl, parse_failed built⟩
  | ok arena =>
    right
    cases requested : request source with
    | error failure => simp [build, requested, bind, Except.bind] at built
    | ok read =>
      obtain ⟨token, rest⟩ := read
      have made := parser.build_requested requested
      rw [built] at made
      cases ran : parser.run (parser.stepBound source) (parser.initial token rest).1
          (parser.initial token rest).2 with
      | error failure => simp [ran] at made
      | ok last =>
        obtain ⟨trees, grows⟩ := grows_of_run ran
        obtain ⟨tree, rfl, shows⟩ := grows.shows
        simp only [ran] at made
        split at made
        · next ended =>
          cases made
          refine ⟨token, rest, last, tree, rfl, rfl, ?_, grows, shows, ended⟩
          have read : last.arena.tree 0 = .ok tree := shows.tree_eq
          simp [parse, built, bind, Except.bind, read, pure, Except.pure]
        · cases made

theorem parse_built {arena : Arena Label} (made : parser.build source = .ok arena) :
    ∃ tree, parser.parse source = .ok tree ∧ Site.Shows ⟨arena, 0, 0⟩ tree := by
  rcases build_cases parser source with ⟨failure, failed, -⟩ |
    ⟨_, _, last, tree, -, built, parsed, -, shows, -⟩
  · cases made.symm.trans failed
  · cases made.symm.trans built
    exact ⟨tree, parsed, shows⟩

theorem build_of_parse (parsed : parser.parse source = .ok tree) :
    ∃ arena, parser.build source = .ok arena ∧ Site.Shows ⟨arena, 0, 0⟩ tree := by
  rcases build_cases parser source with ⟨failure, -, failed⟩ |
    ⟨_, _, last, _, -, built, found, -, shows, -⟩
  · cases parsed.symm.trans failed
  · cases parsed.symm.trans found
    exact ⟨last.arena, built, shows⟩

/-- Where a parse comes to its end: at a step that fails, or with the stack empty and the tree made. -/
inductive Halts (parser : Parser) : Stack → ParseState → Except Failure SyntaxTree → Prop where
  | refused {stack : Stack} {state : ParseState} {failure : Failure}
      (failed : parser.step stack state = .error failure) :
      Halts parser stack state (.error failure)
  | accepted {state : ParseState} {tree : SyntaxTree} (shows : Site.Shows ⟨state.arena, 0, 0⟩ tree)
      (ended : state.token.isEnd = true) : Halts parser [] state (.ok tree)
  | leftover {state : ParseState} (more : state.token.isEnd = false) :
      Halts parser [] state (.error (parser.mismatch .leftoverInput
        (parser.table.registry.nameOf Category.endOfInput) state.token))

/-- A parse without end apart, the steps of a parse lead to where it comes to its end. -/
theorem parse_halts (requested : request source = .ok (token, rest)) :
    parser.parse source = .error .endless ∨
      ∃ stack state, parser.Reaches (parser.initial token rest) (stack, state) ∧
        parser.Halts stack state (parser.parse source) := by
  have comes := parser.run_comes (parser.stepBound source) (parser.initial token rest).1
    (parser.initial token rest).2
  have built := parser.build_requested requested
  generalize parser.run (parser.stepBound source) (parser.initial token rest).1
    (parser.initial token rest).2 = result at comes built
  cases comes with
  | refused reached failed =>
    rw [parse_failed built]
    exact .inr ⟨_, _, reached, .refused failed⟩
  | endless => exact .inl (parse_failed built)
  | @through last reached =>
    refine .inr ⟨_, _, reached, ?_⟩
    by_cases ended : last.token.isEnd = true
    · simp only [if_pos ended] at built
      obtain ⟨tree, parsed, shows⟩ := parse_built built
      rw [parsed]
      exact .accepted shows ended
    · simp only [if_neg ended] at built
      rw [parse_failed built]
      exact .leftover (Bool.eq_false_iff.mpr ended)

/-- The stack with the start symbol alone, before the first of some tokens. -/
def opening (parser : Parser) (tokens : List Token) : Stack × ParseState :=
  let final := Token.atEnd tokens.length
  parser.initial (tokens.headD final) ⟨tokens.tail.map fun token => { outcome := .ok token }, final⟩

/-- A parse without end apart, the steps of a parse of some tokens lead to where it comes to its end. -/
theorem opening_halts (tokens : List Token) :
    parser.parse (.ofTokens tokens) = .error .endless ∨
      ∃ stack state, parser.Reaches (parser.opening tokens) (stack, state) ∧
        parser.Halts stack state (parser.parse (.ofTokens tokens)) :=
  parse_halts (request_listed _ tokens)

theorem parse_reads (faithful : parser.table.Faithful grammar)
    (parsed : parser.parse source = .ok tree) :
    ∃ token rest after, request source = .ok (token, rest) ∧
      Derived grammar (.nonterminal grammar.start) (parser.initial token rest).2 tree after ∧
      after.token.isEnd = true := by
  rcases build_cases parser source with ⟨failure, -, failed⟩ |
    ⟨token, rest, last, _, requested, -, found, grows, -, ended⟩
  · cases parsed.symm.trans failed
  · cases parsed.symm.trans found
    refine ⟨token, rest, last, requested, ⟨?_, ?_, ?_⟩, ended⟩
    · have root := (List.cons.inj grows.roots).1
      rw [← faithful.grammar_eq]
      exact congrArg Prod.snd root
    · exact grows.derivations faithful tree mem_cons_self
    · simpa using grows.reads

theorem parse_ok (faithful : parser.table.Faithful grammar)
    (parsed : parser.parse (.ofTokens tokens) = .ok tree) :
    SyntaxTree.symbol tree = .nonterminal grammar.start ∧ grammar.IsDerivation tree ∧
      SyntaxTree.tokens tree = tokens.takeWhile fun token => !token.isEnd := by
  obtain ⟨token, source, after, requested, ⟨symbol, derivation, reads⟩, ended⟩ :=
    parse_reads faithful parsed
  have listed := request_listed (Token.atEnd tokens.length) tokens
  obtain ⟨rfl, rfl⟩ := Prod.mk.inj (Except.ok.inj (requested.symm.trans listed))
  obtain ⟨proper, rest, split, behind⟩ := reads.ahead rfl ⟨rfl, rfl⟩
  refine ⟨symbol, derivation, ?_⟩
  -- The end of input comes right behind what was read.
  rw [split, takeWhile_append_of_pos (by simpa using proper)]
  cases rest with
  | nil => simp
  | cons head others =>
    rw [behind.token_eq, headD_cons] at ended
    simp [ended]

end Parser

/-- Every node of a parse tree follows the grammar, LL(1) or not, and its tokens are the input up to the first end of input. -/
theorem parseTree_follows_grammar {grammar : Grammar} {registry : Registry}
    (assembled : grammar.Assembled) (fits : Table.Fits grammar registry) :
    ∃ table, Table.build (Analysis.ofGrammar grammar) registry = .ok table ∧
      ∀ (halting : Bool) (tokens : List Token) (tree : SyntaxTree),
        Parser.parse { table, halting } (.ofTokens tokens) = .ok tree →
        (∃ arena, Parser.build { table, halting } (.ofTokens tokens) = .ok arena ∧
          Site.Shows ⟨arena, 0, 0⟩ tree) ∧
        SyntaxTree.symbol tree = .nonterminal grammar.start ∧
        (∀ depth node, (depth, node) ∈ tree.nodes →
          (node.children ≠ [] → ∃ production ∈ grammar.productions,
            SyntaxTree.symbol node = .nonterminal production.lhs ∧
            node.children.map SyntaxTree.symbol = production.rhs) ∧
          (∀ name, SyntaxTree.symbol node = .nonterminal name → node.children = [] →
            ∃ production ∈ grammar.productions,
              production.lhs = name ∧ production.isEpsilon = true) ∧
          ∀ name category, SyntaxTree.symbol node = .terminal name category → node.children = [] ∧
            ∃ token, node.value.token = some token ∧ token.category = category) ∧
        SyntaxTree.tokens tree = tokens.takeWhile fun token => !token.isEnd := by
  have wellFormed := assembled.wellFormed
  obtain ⟨table, built, faithful, -⟩ := Table.build_faithful wellFormed fits
  refine ⟨table, built, ?_⟩
  intro halting tokens tree parsed
  obtain ⟨root, derivation, read⟩ := Parser.parse_ok faithful parsed
  refine ⟨Parser.build_of_parse parsed, root, ?_, read⟩
  intro depth node member
  have allowed := derivation (depth, node) member
  obtain ⟨id, ⟨symbol, token⟩, children⟩ := node
  simp only [Tree.children, SyntaxTree.symbol, Tree.value]
  cases symbol with
  | terminal name category =>
    obtain ⟨rfl, found, rfl, same⟩ := allowed
    refine ⟨by simp, by simp, ?_⟩
    intro _ _ equal
    obtain ⟨-, rfl⟩ := Symbol.terminal.inj equal
    exact ⟨rfl, found, rfl, same⟩
  | nonterminal name =>
    obtain ⟨-, production, listed, rfl, symbols⟩ := allowed
    simp only [Tree.children] at symbols
    refine ⟨?_, ?_, by simp⟩
    · intro above
      have other : production.isEpsilon = false := by
        refine Bool.eq_false_iff.mpr fun vanishing => above ?_
        rw [Production.body_eq_nil vanishing] at symbols
        exact map_eq_nil_iff.mp symbols
      exact ⟨production, listed, rfl, symbols.trans (Production.body_eq_rhs other)⟩
    · rintro _ same rfl
      refine ⟨production, listed, Symbol.nonterminal.inj same, ?_⟩
      by_contra other
      rw [Production.body_eq_rhs (Bool.eq_false_iff.mpr other)] at symbols
      exact wellFormed.written production listed symbols.symm

/-- Conditionals whose second branch may be left out. An open branch can belong to two of them, so this grammar is not LL(1). -/
def conditionalRules : GrammarBuilder := ((((GrammarBuilder.mk "Conditional" [] []).add
    "S" [.terminal "if" 1, .nonterminal "S", .nonterminal "T"]).add
    "S" [.terminal "do" 2]).add
    "T" [.terminal "else" 3, .nonterminal "S"]).add
    "T" []

def conditionalGrammar : Grammar := ⟨"Conditional", "S", conditionalRules.productions⟩

/-- Two nested conditionals with one second branch are parsed with all their tokens. -/
theorem parseTree_of_conditional : conditionalGrammar.Assembled ∧ Table.Fits conditionalGrammar {} ∧
    ∃ table, Table.build (Analysis.ofGrammar conditionalGrammar) {} = .ok table ∧
      ∃ tree, Parser.parse { table } (.ofTokens (Token.ofCategories [1, 1, 2, 3, 2])) = .ok tree ∧
        SyntaxTree.symbol tree = .nonterminal "S" ∧
        SyntaxTree.tokens tree = Token.ofCategories [1, 1, 2, 3, 2] := by
  have assembled : conditionalGrammar.Assembled :=
    ⟨conditionalRules, (GrammarBuilder.Assembled.new "Conditional").extended rfl rfl
      |>.extended rfl rfl |>.extended rfl rfl |>.extended rfl rfl, rfl⟩
  have fits : Table.Fits conditionalGrammar {} := by
    unfold Table.Fits
    decide +kernel
  have accepted : ((Table.build (Analysis.ofGrammar conditionalGrammar) {}).toOption.map
      fun table => (Parser.parse { table } (.ofTokens (Token.ofCategories [1, 1, 2, 3, 2]))).isOk) =
      some true := by
    decide +kernel
  obtain ⟨table, built, sound⟩ := parseTree_follows_grammar assembled fits
  rw [built] at accepted
  cases parsed : Parser.parse { table } (.ofTokens (Token.ofCategories [1, 1, 2, 3, 2])) with
  | error failure => simp [Except.toOption, parsed, Except.isOk, Except.toBool] at accepted
  | ok tree =>
    obtain ⟨-, root, -, read⟩ := sound false _ tree parsed
    exact ⟨assembled, fits, table, built, tree, parsed, root, read⟩

end ThreeAddress

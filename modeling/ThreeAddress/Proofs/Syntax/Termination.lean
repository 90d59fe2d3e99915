import ThreeAddress.Proofs.Syntax.Tracking
import ThreeAddress.Proofs.Table.Ambiguity

/-!
Parses that come to an end.

A descent of a parser is a derivation that begins with the non-terminal reached.
So where no non-terminal derives a form that begins with itself no descent comes back, whatever productions the table has kept, and every parse ends.
-/

namespace ThreeAddress

open List

namespace Grammar

/-- A non-terminal that derives, by one step or more, a form that begins with itself. -/
def LeftRecursive (grammar : Grammar) (name : Text) : Prop :=
  ∃ after, Relation.TransGen grammar.Rewrites [.nonterminal name] (.nonterminal name :: after)

/-- The symbols of a form before its first terminal. -/
def leading (form : List Symbol) : List Symbol := form.takeWhile fun symbol => !symbol.isTerminal

theorem mem_leading_append {left right : List Symbol} {symbol : Symbol} :
    symbol ∈ leading (left ++ right) ↔
      symbol ∈ leading left ∨ leading left = left ∧ symbol ∈ leading right := by
  induction left with
  | nil => simp [leading]
  | cons head rest ih =>
    cases head with
    | terminal name category => simp [leading, Symbol.isTerminal]
    | nonterminal name =>
      simp only [leading, Symbol.isTerminal, cons_append, Bool.not_false,
        takeWhile_cons_of_pos, mem_cons, List.cons.injEq, true_and] at ih ⊢
      rw [ih, or_assoc]

variable {grammar : Grammar} {rank : Text → Nat}

section

variable (lowers : ∀ production ∈ grammar.productions, ∀ symbol ∈ leading production.body, rank symbol.name < rank production.lhs)
include lowers

/-- If the non-terminals with which bodies can begin go down some order, so do those of derived forms. -/
theorem lower_of_rewrites {name : Text} {form : List Symbol}
    (derives : Relation.TransGen grammar.Rewrites [.nonterminal name] form) :
    ∀ symbol ∈ leading form, rank symbol.name < rank name := by
  induction derives with
  | single step =>
    generalize start : [Symbol.nonterminal name] = first at step
    obtain @⟨before, after, production, member⟩ := step
    cases before with
    | cons head rest => simp at start
    | nil =>
      simp only [nil_append, List.cons.injEq, Symbol.nonterminal.injEq] at start
      obtain ⟨rfl, rfl⟩ := start
      simpa using lowers production member
  | tail _ step ih =>
    obtain @⟨before, after, production, member⟩ := step
    intro symbol found
    -- A symbol in front of the body or behind it led before, and one of the body is below its non-terminal.
    rcases mem_leading_append.mp found with early | ⟨free, late⟩
    · exact ih symbol (mem_leading_append.mpr (.inl early))
    · have here : .nonterminal production.lhs ∈ leading (before ++ .nonterminal production.lhs :: after) :=
        mem_leading_append.mpr (.inr ⟨free, by simp [leading, Symbol.isTerminal]⟩)
      rcases mem_leading_append.mp late with inside | ⟨-, behind⟩
      · exact (lowers production member symbol inside).trans (ih _ here)
      · refine ih symbol (mem_leading_append.mpr (.inr ⟨free, ?_⟩))
        exact mem_cons_of_mem _ behind

theorem not_leftRecursive_of_lowers (name : Text) :
    ¬ grammar.LeftRecursive name := by
  rintro ⟨after, derives⟩
  have lower := lower_of_rewrites lowers derives (.nonterminal name)
    (by simp [leading, Symbol.isTerminal])
  exact Nat.lt_irrefl _ lower

end

end Grammar

namespace Table

variable {grammar : Grammar} {table : Table} {lookahead : Category}

section

variable (faithful : Faithful grammar table)
include faithful

theorem Stalls.vanishes {symbol : Symbol}
    (stalls : table.Stalls lookahead symbol) : grammar.Vanishes symbol := by
  induction stalls with
  | expand predicted _ ih =>
    obtain ⟨member, rfl⟩ := faithful.listed _ _ _ predicted
    exact .expand member ih

theorem Descends.rewrites {outer inner : Text}
    (descends : table.Descends lookahead outer inner) :
    ∃ after, Relation.TransGen grammar.Rewrites [.nonterminal outer] (.nonterminal inner :: after) := by
  obtain ⟨production, before, after, predicted, split, stalled⟩ := descends
  obtain ⟨member, rfl⟩ := faithful.listed _ _ _ predicted
  have opened := Grammar.Rewrites.expand [] [] member
  simp only [nil_append, append_nil, split] at opened
  -- The symbols in front of the inner non-terminal vanish one and all.
  have front : grammar.Derives before [] :=
    Grammar.runVanishes_iff.mp fun symbol found => (stalled symbol found).vanishes faithful
  have gone := front.between [] (.nonterminal inner :: after)
  simp only [nil_append] at gone
  exact ⟨after, .head' opened gone⟩

/-- Descents one after the other derive a form that begins with the last non-terminal. -/
theorem rewrites_of_descents {outer inner : Text}
    (descents : Relation.TransGen (table.Descends lookahead) outer inner) :
    ∃ after, Relation.TransGen grammar.Rewrites [.nonterminal outer] (.nonterminal inner :: after) := by
  induction descents with
  | single descends => exact descends.rewrites faithful
  | tail _ descends ih =>
    obtain ⟨later, further⟩ := ih
    obtain ⟨after, step⟩ := descends.rewrites faithful
    have wider := Grammar.Derives.between step.to_reflTransGen [] later
    simp only [nil_append, cons_append] at wider
    exact ⟨after ++ later, further.trans_left wider⟩

theorem Faithful.settles_of_straight
    (straight : ∀ name, ¬ grammar.LeftRecursive name) : table.Settles :=
  fun _ name cycle => straight name (rewrites_of_descents faithful cycle)

end

end Table

namespace Parser

variable {parser : Parser}

/-- A stack and its state have at most one next step. -/
theorem Steps.unique : Relator.RightUnique parser.Steps := by
  intro start one other first second
  exact Except.ok.inj (first.2.symm.trans second.2)

theorem Halts.stuck {stack : Stack} {state : ParseState} {result : Except Failure SyntaxTree}
    (halts : parser.Halts stack state result) (next : Stack × ParseState) :
    ¬ parser.Steps (stack, state) next := by
  rintro ⟨more, ran⟩
  cases halts with
  | refused failed => cases failed.symm.trans ran
  | accepted => exact more rfl
  | leftover => exact more rfl

/-- From one start no two runs of steps come to their ends at different places. -/
theorem eq_of_stuck {start one other : Stack × ParseState} (first : parser.Reaches start one)
    (second : parser.Reaches start other) (stuck : ∀ next, ¬ parser.Steps one next)
    (stuckToo : ∀ next, ¬ parser.Steps other next) : one = other := by
  rcases Relation.ReflTransGen.total_of_right_unique Steps.unique first second with onward | back
  · rcases onward.cases_head with same | ⟨next, step, -⟩
    · exact same
    · exact absurd step (stuck next)
  · rcases back.cases_head with same | ⟨next, step, -⟩
    · exact same.symm
    · exact absurd step (stuckToo next)

/-- Where some run of steps comes to its end every run does. -/
theorem acc_of_reaches {start last : Stack × ParseState} (reached : parser.Reaches start last)
    (stuck : ∀ next, ¬ parser.Steps last next) :
    Acc (fun next current => parser.Steps current next) start := by
  induction reached using Relation.ReflTransGen.head_induction_on with
  | refl => exact Acc.intro _ fun next step => absurd step (stuck next)
  | head step _ ih =>
    refine Acc.intro _ fun other another => ?_
    rwa [Steps.unique another step]

end Parser

/-- Over the table of a grammar without left recursion, LL(1) or not, the steps of every parse lead to its end, and none of them goes on without end. -/
theorem parse_ends_without_leftRecursion {grammar : Grammar} (assembled : grammar.Assembled)
    (straight : ∀ name, ¬ grammar.LeftRecursive name) {registry : Registry}
    (words : Table.Wordsized grammar registry) {table : Table}
    (built : Table.build (Analysis.ofGrammar grammar) registry = .ok table) (halting : Bool)
    (tokens : List Token) :
    Acc (fun next current => Parser.Steps { table, halting } current next)
        (Parser.opening { table, halting } tokens) ∧
      Parser.parse { table, halting } (.ofTokens tokens) ≠ .error .endless ∧
      ∃ stack state, Parser.Reaches { table, halting } (Parser.opening { table, halting } tokens)
          (stack, state) ∧
        Parser.Halts { table, halting } stack state
          (Parser.parse { table, halting } (.ofTokens tokens)) := by
  have wellFormed := assembled.wellFormed
  obtain ⟨_, same, faithful, -⟩ := Table.build_faithful wellFormed (Table.fits_of_build words built)
  cases built.symm.trans same
  have decided : Parser.parse { table, halting } (.ofTokens tokens) ≠ .error .endless :=
    Parser.parse_ne_endless wellFormed faithful (faithful.settles_of_straight straight) rfl
  obtain ⟨stack, state, reached, halts⟩ := (Parser.opening_halts tokens).resolve_left decided
  exact ⟨Parser.acc_of_reaches reached halts.stuck, decided, stack, state, reached, halts⟩

/-- Items with an optional mark in front. Two rules begin with the mark, so this grammar is not LL(1). -/
def markedRules : GrammarBuilder := ((((GrammarBuilder.mk "Marked" [] []).add
    "S" [.nonterminal "M", .terminal "a" 1, .nonterminal "S"]).add
    "S" [.nonterminal "M", .terminal "b" 2]).add
    "M" [.terminal "!" 3]).add
    "M" []

/-- The grammar of marked items. -/
def markedGrammar : Grammar := ⟨"Marked", "S", markedRules.productions⟩

/-- One of the two rules is lost in the table, and every parse ends. -/
theorem parse_ends_of_marked : markedGrammar.Assembled ∧
    (∀ name, ¬ markedGrammar.LeftRecursive name) ∧ Table.Wordsized markedGrammar {} ∧
    ¬ markedGrammar.IsLL1 ∧
    ∃ table, Table.build (Analysis.ofGrammar markedGrammar) {} = .ok table ∧
      ∀ tokens, Parser.parse { table } (.ofTokens tokens) ≠ .error .endless := by
  have assembled : markedGrammar.Assembled :=
    ⟨markedRules, (GrammarBuilder.Assembled.new "Marked").extended rfl rfl
      |>.extended rfl rfl |>.extended rfl rfl |>.extended rfl rfl, rfl⟩
  have straight := @Grammar.not_leftRecursive_of_lowers markedGrammar
    (fun name => if name = "S" then 1 else 0) (by decide)
  have fits : Table.Fits markedGrammar {} := by
    unfold Table.Fits
    decide +kernel
  have words : Table.Wordsized markedGrammar {} := fun entry member =>
    (fits entry member).trans (by decide)
  obtain ⟨table, built, -⟩ := Table.build_faithful assembled.wellFormed fits
  refine ⟨assembled, straight, words, ?_, table, built, fun tokens =>
    (parse_ends_without_leftRecursion assembled straight words built false tokens).2.1⟩
  rw [← Analysis.isLL1_iff assembled.wellFormed]
  decide +kernel

end ThreeAddress

import ThreeAddress.Proofs.Grammar.Derivation

/-!
What holds of every grammar that a builder hands out.

Serial numbers are positions, every symbol that is referred to has rules, and the empty text is a body of its own and never a part of one.
-/

namespace ThreeAddress

open List

/-- The builders that can be reached: a new one, one with another start symbol, or one with a further rule. -/
inductive GrammarBuilder.Assembled : GrammarBuilder → Prop where
  | new (name : Text) : Assembled { name }
  | started {builder : GrammarBuilder} (start : Text) (assembled : Assembled builder) :
      Assembled (builder.withStart start)
  | ruled {builder next : GrammarBuilder} {lhs : Text} {rhs : List Symbol} {vanishes : Bool}
      (assembled : Assembled builder) (ruled : builder.rule lhs rhs vanishes = .ok next) :
      Assembled next

theorem GrammarBuilder.Assembled.extended {builder : GrammarBuilder} (assembled : builder.Assembled)
    {lhs : Text} {rhs : List Symbol} (named : lhs.isEmpty = false)
    (unreserved : checkTerminals rhs = .ok ()) : (builder.add lhs rhs).Assembled := by
  have ruled : builder.rule lhs rhs false = .ok (builder.add lhs rhs) := by
    simp [rule, named, unreserved, bind, Except.bind, pure, Except.pure]
  exact .ruled assembled ruled

/-- The grammars that builders hand out. -/
def Grammar.Assembled (grammar : Grammar) : Prop :=
  ∃ builder : GrammarBuilder, builder.Assembled ∧ builder.grammar = .ok grammar

/-- What the theory of a grammar rests on. -/
structure Grammar.WellFormed (grammar : Grammar) : Prop where
  /-- Serial numbers are positions. -/
  numbered : ∀ (index : Nat) (production : Production),
    grammar.productions[index]? = some production → production.serial = index
  /-- The start symbol has rules. -/
  started : grammar.isNonterminal grammar.start = true
  /-- No right-hand side is missing. -/
  written : ∀ production ∈ grammar.productions, production.rhs ≠ []
  /-- Every non-terminal of a body has rules. -/
  defined : ∀ production ∈ grammar.productions, ∀ name, .nonterminal name ∈ production.body →
    grammar.isNonterminal name = true
  /-- Every terminal of a body has an open category. -/
  unreserved : ∀ production ∈ grammar.productions, ∀ name category,
    .terminal name category ∈ production.body → 0 ≤ category

/-- A run of checks passes exactly if each of them does. -/
theorem forM_eq_ok_iff {α ε : Type} {check : α → Except ε Unit} {items : List α} :
    items.forM check = .ok () ↔ ∀ item ∈ items, check item = .ok () := by
  induction items with
  | nil => simp [forM_eq_forM, pure, Except.pure]
  | cons item rest ih =>
    simp only [forM_eq_forM, forM_cons, mem_cons, forall_eq_or_imp] at ih ⊢
    cases found : check item with
    | error error => simp [bind, Except.bind]
    | ok value => simpa [bind, Except.bind] using ih

namespace Production

variable {production : Production}

/-- A production is written as the empty text exactly if that is its only symbol. -/
theorem isEpsilon_iff :
    production.isEpsilon = true ↔ ∃ symbol, production.rhs = [symbol] ∧ symbol.isEpsilon = true := by
  unfold isEpsilon
  split
  · rename_i symbol split
    simp [split]
  · rename_i other
    constructor
    · simp
    · rintro ⟨symbol, single, _⟩
      exact absurd single (other symbol)

theorem mem_rhs_of_mem_body {symbol : Symbol} (member : symbol ∈ production.body) :
    symbol ∈ production.rhs := by
  unfold body at member
  split at member
  · simp at member
  · exact member

theorem body_eq_rhs (other : production.isEpsilon = false) : production.body = production.rhs := by
  simp [body, other]

theorem body_eq_nil (empty : production.isEpsilon = true) : production.body = [] := by
  simp [body, empty]

/-- The body is the right-hand side, unless that is the empty text. -/
theorem body_cases (production : Production) : production.body = production.rhs ∨
    production.body = [] ∧ ∃ name category, production.rhs = [.terminal name category] ∧
      (Symbol.terminal name category).isEpsilon = true := by
  by_cases empty : production.isEpsilon = true
  · obtain ⟨symbol, single, isEmpty⟩ := isEpsilon_iff.mp empty
    cases symbol with
    | nonterminal name => cases isEmpty
    | terminal name category => exact .inr ⟨body_eq_nil empty, name, category, single, isEmpty⟩
  · exact .inl (body_eq_rhs (by simpa using empty))

end Production

namespace GrammarBuilder

/-- What a builder has checked of a production when it takes it in. -/
def Sound (production : Production) : Prop := production.rhs ≠ [] ∧
    (production.rhs = [Symbol.epsilon] ∨
      ∀ name category, .terminal name category ∈ production.rhs → 0 ≤ category)

variable {symbols : List Symbol}

theorem checkTerminals_ok (passed : checkTerminals symbols = .ok ()) :
    ∀ name category, .terminal name category ∈ symbols → 0 ≤ category := by
  induction symbols with
  | nil => simp
  | cons symbol rest ih =>
    intro name category member
    cases symbol with
    | nonterminal other =>
      simp only [checkTerminals] at passed
      exact ih passed name category (by simpa using member)
    | terminal other found =>
      simp only [checkTerminals] at passed
      split at passed
      · simp at passed
      · rename_i notReserved
        rcases mem_cons.mp member with same | behind
        · cases same
          exact Int.not_lt.mp notReserved
        · exact ih passed name category behind

/-- A builder whose productions are numbered by position, each of them sound. -/
structure Regular (builder : GrammarBuilder) : Prop where
  numbered : ∀ (index : Nat) (production : Production),
    builder.productions[index]? = some production → production.serial = index
  sound : ∀ production ∈ builder.productions, Sound production

variable {builder : GrammarBuilder}

theorem Regular.add (regular : builder.Regular) {lhs : Text} {rhs : List Symbol}
    (unreserved : ∀ name category, .terminal name category ∈ rhs → 0 ≤ category) :
    (builder.add lhs rhs).Regular := by
  constructor
  · intro index production found
    rw [GrammarBuilder.add, getElem?_append, getElem?_singleton] at found
    split at found
    · exact regular.numbered index production found
    · split at found
      · cases found
        simp only
        omega
      · cases found
  · intro production member
    rcases mem_append.mp member with old | new
    · exact regular.sound production old
    · simp only [mem_singleton] at new
      subst new
      simp only [Sound]
      -- No symbols stand for the empty text.
      cases rhs with
      | nil => simp
      | cons head rest => exact ⟨by simp, Or.inr unreserved⟩

theorem Assembled.regular (assembled : builder.Assembled) : builder.Regular := by
  induction assembled with
  | new name => exact ⟨by simp, by simp⟩
  | started start _ ih => exact ⟨ih.numbered, ih.sound⟩
  | @ruled builder next lhs rhs vanishes _ ruled ih =>
    -- A rule that is refused leads nowhere, so the terminals have passed their check.
    unfold rule at ruled
    split at ruled
    · simp at ruled
    · cases checked : checkTerminals rhs with
      | error cause => simp [checked, bind, Except.bind] at ruled
      | ok done =>
        simp only [checked, bind, Except.bind, pure, Except.pure, Except.ok.injEq] at ruled
        subst ruled
        refine ih.add fun name category found => ?_
        split at found
        · simp at found
        · exact checkTerminals_ok checked name category found

variable {grammar : Grammar}

/-- Symbols pass the check exactly if each stands where it may, and the non-terminals among them have rules. -/
theorem checkSymbols_eq_ok {production : Production} :
    ∀ position, checkSymbols grammar production position symbols = .ok () ↔
      ∀ symbol ∈ symbols, (symbol.isEpsilon = true → production.rhs.length ≤ 1) ∧
        ∀ name, symbol = .nonterminal name → grammar.isNonterminal name = true := by
  induction symbols with
  | nil => simp [checkSymbols]
  | cons head rest ih =>
    intro position
    rw [checkSymbols, forall_mem_cons, ← ih (position + 1)]
    split
    · next beside =>
      simp only [Bool.and_eq_true, decide_eq_true_eq] at beside
      simp [beside.1, Nat.not_le.mpr beside.2]
    · next placed =>
      have alone : head.isEpsilon = true → production.rhs.length ≤ 1 := by simpa using placed
      rw [iff_true_intro alone, true_and]
      cases head with
      | terminal name category => simp [Symbol.isTerminal]
      | nonterminal name =>
        cases known : grammar.isNonterminal name <;> simp [Symbol.isTerminal, Symbol.name, known]

/-- A builder hands out its grammar exactly if that has a start symbol with rules, and every symbol in place. -/
theorem grammar_eq_ok :
    builder.grammar = .ok grammar ↔
      grammar = ⟨builder.name, builder.start, builder.productions⟩ ∧ builder.start ≠ [] ∧
      grammar.isNonterminal builder.start = true ∧ ∀ production ∈ builder.productions,
        checkSymbols grammar production 0 production.rhs = .ok () := by
  simp only [GrammarBuilder.grammar]
  constructor
  · intro built
    split at built
    · cases built
    · next started =>
      split at built
      · cases built
      · next known =>
        cases checked : builder.productions.forM fun production =>
            checkSymbols ⟨builder.name, builder.start, builder.productions⟩ production 0
              production.rhs with
        | error error => rw [checked] at built; cases built
        | ok done =>
          rw [checked] at built
          cases built
          exact ⟨rfl, by simpa using started, by simpa using known, forM_eq_ok_iff.mp checked⟩
  · rintro ⟨rfl, started, known, checked⟩
    rw [if_neg (by simpa using started), if_neg (by simp [known]), forM_eq_ok_iff.mpr checked]
    rfl

end GrammarBuilder

namespace Grammar

variable {grammar : Grammar}

theorem wellFormed_of_regular {builder : GrammarBuilder} (regular : builder.Regular)
    (built : builder.grammar = .ok grammar) : grammar.WellFormed := by
  obtain ⟨rfl, -, started, checked⟩ := GrammarBuilder.grammar_eq_ok.mp built
  have sound := regular.sound
  refine ⟨regular.numbered, started, fun production member => (sound production member).1, ?_, ?_⟩
  · intro production member name found
    exact ((GrammarBuilder.checkSymbols_eq_ok 0).mp (checked production member) (.nonterminal name)
      (Production.mem_rhs_of_mem_body found)).2 name rfl
  · intro production member name category found
    rcases (sound production member).2 with empty | openCategories
    · have vanishing : production.isEpsilon = true := by
        rw [Production.isEpsilon_iff]
        exact ⟨Symbol.epsilon, empty, by decide⟩
      simp [Production.body_eq_nil vanishing] at found
    · exact openCategories name category (Production.mem_rhs_of_mem_body found)

theorem Assembled.wellFormed (assembled : grammar.Assembled) : grammar.WellFormed := by
  obtain ⟨builder, reached, built⟩ := assembled
  exact wellFormed_of_regular reached.regular built

theorem WellFormed.mem_nonterminals (wellFormed : grammar.WellFormed) {name : Text} :
    name ∈ grammar.nonterminals ↔ grammar.isNonterminal name = true := by
  have owners : name ∈ (grammar.productions.map Production.lhs).eraseDups ↔
      grammar.isNonterminal name = true := by
    simp [isNonterminal, mem_eraseDups]
  simp only [nonterminals, mem_cons, mem_filter, owners]
  constructor
  · rintro (rfl | ⟨known, _⟩)
    · exact wellFormed.started
    · exact known
  · intro known
    by_cases start : name = grammar.start
    · exact Or.inl start
    · exact Or.inr ⟨known, by simpa using start⟩

theorem isNonterminal_lhs {production : Production} (member : production ∈ grammar.productions) :
    grammar.isNonterminal production.lhs = true :=
  any_eq_true.mpr ⟨production, member, by simp⟩

end Grammar

end ThreeAddress

import ThreeAddress.Ebnf.Lowering
import ThreeAddress.Grammar.RuleList
import ThreeAddress.Proofs.Table.Contents

/-!
What holds of every grammar that can be loaded.

Rules come from a builder, from a rule list or from EBNF, and only the first of them checks the terminals itself.
The other two take terminals from a registry, which has no reserved categories, so all three give well-formed grammars.
-/

namespace ThreeAddress

open List

section Checks

variable {ε σ α β : Type}

theorem ok_of_bind {first : Except ε α} {next : α → Except ε β} {result : β}
    (ran : (first >>= next) = .ok result) : ∃ value, first = .ok value ∧ next value = .ok result := by
  cases first with
  | error error => cases ran
  | ok value => exact ⟨value, rfl, ran⟩

theorem ok_of_toOption_bind {result : Except ε α} {next : α → Option β} {answer : β}
    (answered : result.toOption.bind next = some answer) :
    ∃ value, result = .ok value ∧ next value = some answer := by
  cases result with
  | error failure => cases answered
  | ok value => exact ⟨value, rfl, answered⟩

/-- What holds at first and survives every step that succeeds holds behind a run of them. -/
theorem foldlM_induct {step : σ → α → Except ε σ} (kept : σ → Prop)
    (preserved : ∀ state item next, step state item = .ok next → kept state → kept next)
    {items : List α} : ∀ {state last : σ}, items.foldlM step state = .ok last → kept state →
      kept last := by
  induction items with
  | nil =>
    intro state last ran start
    cases ran
    exact start
  | cons item rest ih =>
    intro state last ran start
    rw [foldlM_cons] at ran
    obtain ⟨next, stepped, ran⟩ := ok_of_bind ran
    exact ih ran (preserved state item next stepped start)

end Checks

/-- A lookup of categories by name that finds no reserved ones. -/
def FindsOpen (category? : Text → Option Category) : Prop :=
  ∀ name category, category? name = some category → 0 ≤ category

namespace Registry

/-- A registry without reserved categories. -/
def Unreserved (registry : Registry) : Prop :=
  ∀ category ∈ registry.entries.map Prod.fst, 0 ≤ category

variable {registry : Registry}

theorem Unreserved.add {next : Registry} {category : Category} {name : Text}
    (unreserved : registry.Unreserved) (added : registry.add category name = .ok next) :
    next.Unreserved := by
  -- Negative categories are refused first, and taken ones and taken names after that.
  unfold Registry.add at added
  by_cases reserved : category < 0
  · rw [if_pos reserved] at added
    cases added
  · rw [if_neg reserved] at added
    split at added
    · cases added
    · split at added
      · cases added
      · cases added
        intro other member
        rcases NamedCategories.mem_keys_put.mp member with rfl | old
        · exact Int.not_lt.mp reserved
        · exact unreserved other old

theorem unreserved_of_ofList {categories : List (Category × Text)}
    (registered : ofList categories = .ok registry) : registry.Unreserved :=
  foldlM_induct Unreserved (fun _ _ _ added unreserved => unreserved.add added) registered
    (by simp [Unreserved, empty])

theorem Unreserved.findsOpen (unreserved : registry.Unreserved) : FindsOpen registry.category? := by
  intro name category found
  obtain ⟨entry, isEntry, rfl⟩ := Option.map_eq_some_iff.mp found
  exact unreserved _ (mem_map_of_mem (mem_of_find?_eq_some isEntry))

end Registry

open Grammar

namespace Grammar

/-! Runs of symbols without reserved categories. -/

theorem unreserved_nil : Unreserved [] := fun _ _ absent => nomatch absent

theorem Unreserved.append {first second : List Symbol} (one : Unreserved first)
    (two : Unreserved second) : Unreserved (first ++ second) := by
  intro name category member
  rcases mem_append.mp member with early | late
  · exact one name category early
  · exact two name category late

theorem unreserved_nonterminal (name : Text) : Unreserved [.nonterminal name] := by
  intro other category member
  cases mem_singleton.mp member

theorem unreserved_terminal (name : Text) {category : Category} (opened : 0 ≤ category) :
    Unreserved [.terminal name category] := by
  intro other found member
  cases mem_singleton.mp member
  exact opened

end Grammar

namespace RuleList

variable {category? : Text → Option Category}

theorem symbolsOf_unreserved (opened : FindsOpen category?)
    {rule : Text} {alone : Bool} {listed : List RuleSymbol} :
    ∀ {symbols : List Symbol}, symbolsOf category? rule alone listed = .ok symbols →
      Unreserved symbols := by
  induction listed with
  | nil =>
    intro symbols read
    cases read
    exact unreserved_nil
  | cons symbol rest ih =>
    intro symbols read
    rw [symbolsOf] at read
    split at read
    · obtain ⟨others, readOthers, read⟩ := ok_of_bind read
      cases read
      exact (unreserved_nonterminal _).append (ih readOthers)
    · split at read
      · -- The name for the empty text is left out, if it stands alone.
        split at read
        · exact ih read
        · cases read
      · split at read
        · cases read
        · next category found =>
          obtain ⟨others, readOthers, read⟩ := ok_of_bind read
          cases read
          exact (unreserved_terminal _ (opened _ _ found)).append (ih readOthers)

theorem addRule_regular (opened : FindsOpen category?)
    {builder next : GrammarBuilder} {rule : Rule}
    (added : addRule category? builder rule = .ok next) (regular : builder.Regular) :
    next.Regular := by
  unfold addRule at added
  split at added
  · cases added
  · split at added
    · cases added
    · -- The productions of a rule are added one by one, each with the symbols that were looked up.
      refine foldlM_induct GrammarBuilder.Regular ?_ added regular
      intro builder production next stepped regular
      obtain ⟨symbols, read, stepped⟩ := ok_of_bind stepped
      cases stepped
      exact regular.add (symbolsOf_unreserved opened read)

theorem load_wellFormed (opened : FindsOpen category?)
    {text start : Text} {grammar : Grammar} (loaded : load text start category? = .ok grammar) :
    grammar.WellFormed := by
  unfold load at loaded
  split at loaded
  · cases loaded
  · obtain ⟨builder, added, built⟩ := ok_of_bind loaded
    refine wellFormed_of_regular (foldlM_induct GrammarBuilder.Regular
      (fun _ _ _ added regular => addRule_regular opened added regular) added ?_) built
    exact ⟨by simp, by simp⟩

end RuleList

namespace Ebnf

/-- Helper rules whose terminals are not reserved. -/
def Helpers.Unreserved (helpers : Helpers) : Prop :=
  ∀ rule ∈ helpers.rules, ∀ symbols ∈ rule.2, Grammar.Unreserved symbols

/-- A part of lowering that gives something good and makes helper rules without reserved categories. -/
def Opens {α : Type} (part : Lower α) (good : α → Prop) : Prop :=
  ∀ before value after, part.run before = .ok (value, after) → before.Unreserved →
    after.Unreserved ∧ good value

namespace Opens

variable {α β : Type} {good : α → Prop}

theorem pure {value : α} (isGood : good value) : Opens (Pure.pure value) good := by
  intro before result after ran unreserved
  cases ran
  exact ⟨unreserved, isGood⟩

/-- What follows a part starts from what the part gives. -/
theorem bind {first : Lower β} {next : β → Lower α} {fine : β → Prop} (one : Opens first fine)
    (others : ∀ value, fine value → Opens (next value) good) : Opens (first >>= next) good := by
  intro before result after ran unreserved
  rw [StateT.run_bind] at ran
  obtain ⟨⟨value, middle⟩, ranFirst, ranNext⟩ := ok_of_bind ran
  obtain ⟨still, isFine⟩ := one before value middle ranFirst unreserved
  exact others value isFine middle result after ranNext still

end Opens

variable {scope : Scope}

/-- A helper rule has the symbols of its right-hand sides, and stands for them as a non-terminal. -/
theorem helper_opens {alternatives : Symbol → Alternatives}
    (unreserved : ∀ name, ∀ symbols ∈ alternatives (.nonterminal name), Grammar.Unreserved symbols) :
    Opens (helper scope alternatives) fun symbol => Grammar.Unreserved [symbol] := by
  intro before value after ran old
  cases ran
  constructor
  · intro rule member symbols inside
    rcases mem_append.mp member with early | new
    · exact old rule early symbols inside
    · cases mem_singleton.mp new
      exact unreserved _ symbols inside
  · exact unreserved_nonterminal _

theorem terminal_opens (opened : FindsOpen scope.category?) (name : Text) :
    Opens (terminal scope name) fun symbol => Grammar.Unreserved [symbol] := by
  intro before value after ran unreserved
  unfold terminal at ran
  split at ran
  · next category found =>
    cases ran
    exact ⟨unreserved, unreserved_terminal _ (opened _ _ found)⟩
  · cases ran

mutual

theorem symbol_opens (opened : FindsOpen scope.category?) :
    ∀ term, Opens (symbol scope term) fun symbol => Grammar.Unreserved [symbol]
  | .name name => by
    rw [symbol]
    -- A name with a production of its own is a non-terminal, and any other name a terminal.
    split
    · exact .pure (unreserved_nonterminal name)
    · exact terminal_opens opened name
  | .token name => by
    rw [symbol]
    exact terminal_opens opened name
  | .group body => by
    rw [symbol]
    exact (alternatives_opens opened body).bind fun inner good => helper_opens fun _ => good
  | .option body => by
    rw [symbol]
    refine (alternatives_opens opened body).bind fun inner good => helper_opens fun self symbols member => ?_
    rcases mem_append.mp member with inside | empty
    · exact good symbols inside
    · cases mem_singleton.mp empty
      exact unreserved_nil
  | .repetition body => by
    rw [symbol]
    refine (alternatives_opens opened body).bind fun inner good => helper_opens fun self symbols member => ?_
    rcases mem_append.mp member with round | empty
    · -- The rule's own name at the end of a round is a non-terminal.
      obtain ⟨others, inside, rfl⟩ := mem_map.mp round
      exact (good others inside).append (unreserved_nonterminal _)
    · cases mem_singleton.mp empty
      exact unreserved_nil
  | .range => by
    rw [symbol]
    intro before value after ran
    cases ran
termination_by structural term => term

theorem symbols_opens (opened : FindsOpen scope.category?) :
    ∀ terms, Opens (symbols scope terms) Grammar.Unreserved
  | [] => .pure unreserved_nil
  | term :: rest => by
    rw [symbols]
    exact (symbol_opens opened term).bind fun first good =>
      (symbols_opens opened rest).bind fun others fine => .pure (good.append fine)
termination_by structural terms => terms

/-- An expression is lowered to right-hand sides that are not reserved. -/
theorem alternatives_opens (opened : FindsOpen scope.category?) :
    ∀ branches, Opens (alternatives scope branches) fun sides =>
      ∀ symbols ∈ sides, Grammar.Unreserved symbols
  | [] => .pure fun symbols absent => by cases absent
  | terms :: rest => by
    rw [alternatives]
    refine (symbols_opens opened terms).bind fun first good =>
      (alternatives_opens opened rest).bind fun others fine => ?_
    refine .pure fun symbols member => ?_
    rcases mem_cons.mp member with rfl | behind
    · exact good
    · exact fine symbols behind
termination_by structural branches => branches

end

variable {builder : GrammarBuilder}

theorem addRules_regular {rules : List (Text × Alternatives)}
    (unreserved : ∀ rule ∈ rules, ∀ symbols ∈ rule.2, Grammar.Unreserved symbols)
    (regular : builder.Regular) : (rules.foldl addRule builder).Regular := by
  refine foldl_induct GrammarBuilder.Regular regular fun builder rule member regular => ?_
  exact foldl_induct GrammarBuilder.Regular regular fun builder symbols inside regular =>
    regular.add (unreserved rule member symbols inside)

variable {category? : Text → Option Category}

theorem addProduction_regular {names : List Text} (opened : FindsOpen category?)
    {next : GrammarBuilder} {production : Production}
    (added : addProduction names category? builder production = .ok next)
    (regular : builder.Regular) : next.Regular := by
  obtain ⟨⟨sides, helpers⟩, ran, added⟩ := ok_of_bind added
  cases added
  have opens : Opens (productionAlternatives ⟨production.name, names, category?⟩
      production.expression) fun sides => ∀ symbols ∈ sides, Grammar.Unreserved symbols := by
    cases production.expression with
    | none =>
      refine .pure fun symbols member => ?_
      cases mem_singleton.mp member
      exact unreserved_nil
    | some expression => exact alternatives_opens opened expression
  -- Lowering starts without helper rules, so that all of them come from this production.
  obtain ⟨ofHelpers, ofSides⟩ := opens {} sides helpers ran fun rule absent => by cases absent
  refine addRules_regular (fun rule member => ?_) regular
  rcases mem_cons.mp member with rfl | isHelper
  · exact ofSides
  · exact ofHelpers rule isHelper

theorem load_wellFormed (opened : FindsOpen category?) {name text start : Text} {grammar : Grammar}
    (loaded : load name text start category? = .ok grammar) : grammar.WellFormed := by
  unfold load at loaded
  split at loaded
  · unfold toGrammar at loaded
    split at loaded
    · cases loaded
    · obtain ⟨builder, added, built⟩ := ok_of_bind loaded
      refine wellFormed_of_regular (foldlM_induct GrammarBuilder.Regular
        (fun _ _ _ added regular => addProduction_regular opened added regular) added ?_) built
      exact ⟨by simp, by simp⟩
  · cases loaded

end Ebnf

namespace Grammar

/-- The grammars that can be loaded: by a builder, from a rule list, or from EBNF. -/
inductive Loaded : Grammar → Prop where
  | built {builder : GrammarBuilder} {grammar : Grammar} (assembled : builder.Assembled)
      (handed : builder.grammar = .ok grammar) : Loaded grammar
  | listed {categories : List (Category × Text)} {registry : Registry} {text start : Text}
      {grammar : Grammar} (registered : Registry.ofList categories = .ok registry)
      (loaded : RuleList.load text start registry.category? = .ok grammar) : Loaded grammar
  | written {categories : List (Category × Text)} {registry : Registry} {name text start : Text}
      {grammar : Grammar} (registered : Registry.ofList categories = .ok registry)
      (loaded : Ebnf.load name text start registry.category? = .ok grammar) : Loaded grammar

variable {grammar : Grammar}

theorem Loaded.wellFormed (loaded : grammar.Loaded) : grammar.WellFormed := by
  cases loaded with
  | built assembled handed => exact wellFormed_of_regular assembled.regular handed
  | listed registered loaded =>
    exact RuleList.load_wellFormed (Registry.unreserved_of_ofList registered).findsOpen loaded
  | written registered loaded =>
    exact Ebnf.load_wellFormed (Registry.unreserved_of_ofList registered).findsOpen loaded

end Grammar

end ThreeAddress

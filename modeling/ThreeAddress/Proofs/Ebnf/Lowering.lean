import ThreeAddress.Proofs.Ebnf.Language
import ThreeAddress.Proofs.Grammar.Assembly
import Mathlib.Data.List.Nodup

/-!
Lowering EBNF keeps its language.

Every group, option and repetition gets one helper rule, numbered in the order of their ends.
The rules refer to nothing but productions, helpers and known categories, so they make a grammar.
-/

namespace ThreeAddress

open List

namespace GrammarBuilder

/--
Productions added to a builder, with the given left-hand sides and bodies.

The empty text stands alone in them, and only in place of an empty body.
-/
structure Adds (before after : GrammarBuilder) (sides : List (Text × List Symbol)) : Prop where
  name : after.name = before.name
  start : before.start ≠ [] → after.start = before.start
  productions : ∃ made, after.productions = before.productions ++ made ∧
    made.map (fun production => (production.lhs, production.body)) = sides ∧
    ∀ production ∈ made, ∀ symbol ∈ production.rhs,
      (symbol.isEpsilon = true → production.rhs.length ≤ 1) ∧
        ∀ name, symbol = .nonterminal name → symbol ∈ production.body

namespace Adds

variable {before middle after : GrammarBuilder} {first second : List (Text × List Symbol)}

theorem refl : before.Adds before [] := ⟨rfl, fun _ => rfl, [], by simp⟩

theorem trans (one : before.Adds middle first) (two : middle.Adds after second) :
    before.Adds after (first ++ second) := by
  obtain ⟨made, added, rfl, sound⟩ := one.productions
  obtain ⟨more, addedMore, rfl, soundToo⟩ := two.productions
  refine ⟨two.name.trans one.name, fun started => ?_, made ++ more, ?_, by simp, ?_⟩
  · have same := one.start started
    rw [two.start (by rwa [same]), same]
  · rw [addedMore, added, append_assoc]
  · intro production member
    exact (mem_append.mp member).elim (sound production) (soundToo production)

end Adds

theorem add_adds {builder : GrammarBuilder} {lhs : Text} {rhs : List Symbol}
    (plain : ∀ symbol ∈ rhs, symbol.isEpsilon = false) :
    builder.Adds (builder.add lhs rhs) [(lhs, rhs)] := by
  refine ⟨rfl, fun started => by simp [add, started], _, rfl, ?_⟩
  cases rhs with
  -- An empty side is written as the empty text alone, which is no symbol of the body.
  | nil =>
    have empty : Symbol.isEpsilon Symbol.epsilon = true := by decide
    have written : Production.isEpsilon ⟨builder.productions.length, lhs, [.epsilon]⟩ = true :=
      empty
    refine ⟨?_, by simp [Symbol.epsilon]⟩
    simp [Production.body_eq_nil written]
  | cons symbol rest =>
    have written :
        Production.isEpsilon ⟨builder.productions.length, lhs, symbol :: rest⟩ = false := by
      rw [Bool.eq_false_iff, ne_eq, Production.isEpsilon_iff]
      rintro ⟨other, single, empty⟩
      cases single
      simp [plain symbol] at empty
    simp only [isEmpty_cons, Bool.false_eq_true, if_false, map_singleton,
      mem_singleton, forall_eq, Production.body_eq_rhs written, true_and]
    exact fun other member =>
      ⟨fun empty => by simp [plain other member] at empty, fun _ _ => member⟩

end GrammarBuilder

namespace Ebnf

/-- The byte that separates a helper's number from the name in front of it. -/
def mark : UInt8 := 126

def helperName (rule : Text) (number : Nat) : Text := rule ++ mark :: Text.ofNat number

theorem takeWhile_helperName {rule : Text} (number : Nat) (free : mark ∉ rule) :
    (helperName rule number).takeWhile (· != mark) = rule := by
  have clean : ∀ byte ∈ rule, (byte != mark) = true := fun byte member =>
    bne_iff_ne.mpr fun isMark => free (isMark ▸ member)
  rw [helperName, takeWhile_append_of_pos clean, takeWhile_cons_of_neg (by simp), append_nil]

theorem helperName_inj {rule other : Text} {number another : Nat} (free : mark ∉ rule)
    (freeToo : mark ∉ other) (same : helperName rule number = helperName other another) :
    rule = other ∧ number = another := by
  obtain rfl : rule = other := by
    rw [← takeWhile_helperName number free, same, takeWhile_helperName another freeToo]
  exact ⟨rfl, Text.ofNat_injective (List.cons.inj (append_cancel_left same)).2⟩

mutual

/-- The number of groups, options and repetitions in a term, which is that of its helpers. -/
def Term.helpers : Term → Nat
  | .group body => choiceHelpers body + 1
  | .option body => choiceHelpers body + 1
  | .repetition body => choiceHelpers body + 1
  | _ => 0
termination_by structural term => term

/-- The number of helpers of a sequence. -/
def sequenceHelpers : List Term → Nat
  | [] => 0
  | term :: rest => term.helpers + sequenceHelpers rest
termination_by structural terms => terms

/-- The number of helpers of an expression. -/
def choiceHelpers : Expression → Nat
  | [] => 0
  | terms :: rest => sequenceHelpers terms + choiceHelpers rest
termination_by structural branches => branches

end

/-- Whether a name has a category other than that of the empty text. -/
def isCategory (category? : Text → Option Category) (name : Text) : Bool :=
  (category? name).any fun category => category != Category.epsilon

mutual

/-- Whether a term has no range, a branch for every choice, and a meaning for every name. -/
def Term.isComplete (names : List Text) (category? : Text → Option Category) : Term → Bool
  | .name name => names.contains name || isCategory category? name
  | .token name => isCategory category? name
  | .group body => !body.isEmpty && choiceIsComplete names category? body
  | .option body => !body.isEmpty && choiceIsComplete names category? body
  | .repetition body => !body.isEmpty && choiceIsComplete names category? body
  | .range => false
termination_by structural term => term

/-- Whether all terms of a sequence are complete. -/
def sequenceIsComplete (names : List Text) (category? : Text → Option Category) :
    List Term → Bool
  | [] => true
  | term :: rest => term.isComplete names category? && sequenceIsComplete names category? rest
termination_by structural terms => terms

/-- Whether all branches of an expression are complete. -/
def choiceIsComplete (names : List Text) (category? : Text → Option Category) :
    Expression → Bool
  | [] => true
  | terms :: rest =>
    sequenceIsComplete names category? terms && choiceIsComplete names category? rest
termination_by structural branches => branches

end

namespace Production

/-- Whether a production has a branch, and all of them are complete. -/
def isComplete (names : List Text) (category? : Text → Option Category)
    (production : Production) : Bool :=
  !production.body.isEmpty && choiceIsComplete names category? production.body

/-- The names of the rules of a production: its own, and those of its helpers. -/
def ruleNames (production : Production) : List Text := production.name ::
    (List.range' 1 (choiceHelpers production.body)).map (helperName production.name)

end Production

/-- A symbol that a rule may hold: a production, a helper, or a category. -/
def Refers (names : List Text) (rules : List (Text × Alternatives)) : Symbol → Prop
  | .nonterminal name => name ∈ names ∨ name ∈ rules.map Prod.fst
  | .terminal _ category => category ≠ Category.epsilon

/-- Rules with at least one right-hand side each, that refer to names and to each other. -/
def Closed (names : List Text) (rules : List (Text × Alternatives)) : Prop :=
  ∀ rule ∈ rules, rule.2 ≠ [] ∧ ∀ symbols ∈ rule.2, ∀ symbol ∈ symbols, Refers names rules symbol

/-- A grammar with some rules and no others of their names. -/
def OwnsAll (grammar : Grammar) (rules : List (Text × Alternatives)) : Prop :=
  ∀ rule ∈ rules, grammar.Owns rule.1 rule.2

variable {names : List Text} {rules : List (Text × Alternatives)} {name : Text}
  {production : Production}

theorem Refers.mono {more : List (Text × Alternatives)} {symbol : Symbol}
    (refers : Refers names rules symbol) (kept : rules ⊆ more) : Refers names more symbol := by
  cases symbol with
  | terminal name category => exact refers
  | nonterminal name => exact refers.imp id fun member => map_subset _ kept member

theorem Closed.mono {more : List (Text × Alternatives)} (closed : Closed names rules)
    (kept : rules ⊆ more) {rule : Text × Alternatives} (member : rule ∈ rules) :
    rule.2 ≠ [] ∧ ∀ symbols ∈ rule.2, ∀ symbol ∈ symbols, Refers names more symbol :=
  (closed rule member).imp_right fun refers symbols isSide symbol isPart =>
    (refers symbols isSide symbol isPart).mono kept

/-- Helpers are numbered on, and the ones before them are kept. -/
structure Helpers.Grown (rule : Text) (before after : Helpers) (number : Nat) : Prop where
  count : after.count = before.count + number
  rules : ∃ made, after.rules = before.rules ++ made ∧
    made.map Prod.fst = (List.range' (before.count + 1) number).map (helperName rule)

namespace Helpers.Grown

variable {rule : Text} {before middle after : Helpers} {first second : Nat}

theorem refl : before.Grown rule before 0 := ⟨rfl, [], by simp, by simp⟩

theorem trans (one : before.Grown rule middle first) (two : middle.Grown rule after second) :
    before.Grown rule after (first + second) := by
  obtain ⟨made, rules, names⟩ := one.rules
  obtain ⟨others, otherRules, otherNames⟩ := two.rules
  refine ⟨by rw [two.count, one.count, Nat.add_assoc], made ++ others, ?_, ?_⟩
  · rw [otherRules, rules, append_assoc]
  · rw [map_append, names, otherNames, one.count, ← map_append,
      Nat.add_right_comm before.count first 1, List.range'_append_1]

theorem kept (grown : before.Grown rule after first) : before.rules ⊆ after.rules := by
  obtain ⟨made, rules, _⟩ := grown.rules
  rw [rules]
  exact subset_append_left _ _

end Helpers.Grown

/--
What lowering a part comes to: it succeeds with a given number of helpers.

The rules stay closed, the value is good for them, and it means something in any grammar that has them.
-/
def Makes {α : Type} (scope : Scope) (part : Lower α) (number : Nat)
    (good : List (Text × Alternatives) → α → Prop) (means : Grammar → α → Prop) : Prop :=
  ∀ before : Helpers, Closed scope.names before.rules → ∃ value after,
    part.run before = .ok (value, after) ∧ before.Grown scope.rule after number ∧
      Closed scope.names after.rules ∧ good after.rules value ∧
      ∀ grammar, OwnsAll grammar after.rules → means grammar value

namespace Makes

variable {α : Type} {scope : Scope}

theorem run_bind {β : Type} {part : Lower α} {further : α → Lower β} {before after : Helpers}
    {value : α} (ran : part.run before = .ok (value, after)) :
    (part >>= further).run before = (further value).run after := by
  rw [StateT.run_bind, ran]
  rfl

theorem pure {value : α} {good : List (Text × Alternatives) → α → Prop}
    {means : Grammar → α → Prop} (isGood : ∀ rules, good rules value)
    (meant : ∀ grammar, means grammar value) : Makes scope (Pure.pure value) 0 good means :=
  fun before closed => ⟨value, before, rfl, .refl, closed, isGood _, fun grammar _ => meant grammar⟩

/-- Less may be said about what is made. -/
theorem imp {part : Lower α} {number : Nat} {good fine : List (Text × Alternatives) → α → Prop}
    {means states : Grammar → α → Prop} (makes : Makes scope part number good means)
    (ofGood : ∀ rules value, good rules value → fine rules value)
    (ofMeans : ∀ grammar value, means grammar value → states grammar value) :
    Makes scope part number fine states := by
  intro before closed
  obtain ⟨value, after, ran, grown, stays, isGood, meant⟩ := makes before closed
  exact ⟨value, after, ran, grown, stays, ofGood _ _ isGood,
    fun grammar owns => ofMeans _ _ (meant grammar owns)⟩

theorem cons {first : Lower α} {rest : Lower (List α)} {number more length : Nat}
    {good : List (Text × Alternatives) → α → Prop} {means : Grammar → α → Prop}
    {meansRest meansAll : Grammar → List α → Prop}
    (one : Makes scope first number good means)
    (others : Makes scope rest more
      (fun rules values => values.length = length ∧ ∀ value ∈ values, good rules value) meansRest)
    (mono : ∀ {rules others value}, good rules value → rules ⊆ others → good others value)
    (joins : ∀ {grammar value tail}, means grammar value → meansRest grammar tail →
      meansAll grammar (value :: tail)) :
    Makes scope (do
        let value ← first
        return value :: (← rest)) (number + more)
      (fun rules values => values.length = length + 1 ∧ ∀ value ∈ values, good rules value)
      meansAll := by
  intro before closed
  obtain ⟨value, middle, ran, grown, stays, isGood, meant⟩ := one before closed
  obtain ⟨values, after, ranToo, grownToo, staysToo, ⟨sized, allGood⟩, meantToo⟩ :=
    others middle stays
  refine ⟨value :: values, after, ?_, grown.trans grownToo, staysToo, ⟨by simp [sized], ?_⟩, ?_⟩
  · rw [run_bind ran, run_bind ranToo]
    rfl
  · intro found member
    rcases mem_cons.mp member with rfl | inside
    -- What the first part refers to is still there behind the helpers of the others.
    · exact mono isGood grownToo.kept
    · exact allGood found inside
  · intro grammar owns
    exact joins (meant grammar fun rule member => owns rule (grownToo.kept member))
      (meantToo grammar owns)

/-- A helper takes the next number, and its rule comes last. -/
theorem helper_run (build : Symbol → Alternatives) (before : Helpers) :
    (Ebnf.helper scope build).run before =
      .ok (.nonterminal (helperName scope.rule (before.count + 1)),
        ⟨before.count + 1, before.rules ++ [(helperName scope.rule (before.count + 1),
          build (.nonterminal (helperName scope.rule (before.count + 1))))]⟩) := by
  have isMark : ("~" : Text) = [mark] := by decide
  have named : scope.rule ++ ("~" : Text) ++ Text.ofNat (before.count + 1) =
      helperName scope.rule (before.count + 1) := by
    simp [helperName, isMark]
  rw [← named]
  rfl

theorem helper {part : Lower Alternatives} {number : Nat} {body : Expression}
    {means : Grammar → Alternatives → Prop} {states : Grammar → Symbol → Prop}
    (build : Alternatives → Symbol → Alternatives)
    (filled : ∀ inner self, inner ≠ [] → build inner self ≠ [])
    (within : ∀ inner self, ∀ symbols ∈ build inner self, ∀ symbol ∈ symbols,
      symbol = self ∨ ∃ others ∈ inner, symbol ∈ others)
    (gives : ∀ {grammar rule inner}, grammar.Owns rule (build inner (.nonterminal rule)) →
      means grammar inner → states grammar (.nonterminal rule))
    (branched : body.isEmpty = false)
    (ofBody : Makes scope part number (fun rules inner => inner.length = body.length ∧
      ∀ symbols ∈ inner, ∀ symbol ∈ symbols, Refers scope.names rules symbol) means) :
    Makes scope (do
        let inner ← part
        Ebnf.helper scope (build inner)) (number + 1) (Refers scope.names) states := by
  intro before closed
  obtain ⟨inner, middle, ran, grown, stays, ⟨sized, refers⟩, meant⟩ := ofBody before closed
  -- Every branch of the body is one of its right-hand sides, so there is at least one.
  have some : inner ≠ [] := by
    rintro rfl
    cases body with
    | nil => cases branched
    | cons _ _ => cases sized
  let rule := helperName scope.rule (middle.count + 1)
  let made : Text × Alternatives := (rule, build inner (.nonterminal rule))
  have step : middle.Grown scope.rule ⟨middle.count + 1, middle.rules ++ [made]⟩ 1 :=
    ⟨rfl, [made], rfl, rfl⟩
  refine ⟨.nonterminal rule, ⟨middle.count + 1, middle.rules ++ [made]⟩, ?_, grown.trans step,
    ?_, .inr (by simp [made]), ?_⟩
  · rw [run_bind ran, helper_run]
  · intro other member
    rcases mem_append.mp member with old | new
    · exact stays.mono step.kept old
    · rw [mem_singleton.mp new]
      refine ⟨filled _ _ some, fun symbols isSide symbol isSymbol => ?_⟩
      -- The new rule refers to itself, or to what its body referred to before.
      rcases within _ _ symbols isSide symbol isSymbol with rfl | ⟨others, inside, isPart⟩
      · exact .inr (by simp [made])
      · exact (refers others inside symbol isPart).mono step.kept
  · intro grammar owns
    exact gives (owns made (by simp))
      (meant grammar fun rule member => owns rule (step.kept member))

end Makes

variable {productions : List Production} {category? : Text → Option Category} {scope : Scope}

theorem terminal_makes {means : Grammar → Symbol → Prop} {category : Category}
    (known : scope.category? name = some category) (good : category ≠ Category.epsilon)
    (meant : ∀ grammar, means grammar (.terminal name category)) :
    Makes scope (terminal scope name) 0 (Refers scope.names) means := by
  rw [terminal, known]
  exact .pure (fun _ => good) meant

theorem isCategory_iff : isCategory category? name = true ↔
    ∃ category, category? name = some category ∧ category ≠ Category.epsilon := by
  simp [isCategory, Option.any_eq_true]

mutual

theorem symbol_makes (named : scope.names = productions.map Production.name) (term : Term)
    (complete : term.isComplete scope.names scope.category? = true) :
    Makes scope (symbol scope term) term.helpers (Refers scope.names)
      (fun grammar symbol => Lowered productions scope.category? grammar (.term term) [[symbol]]) := by
  match term with
  | .name name =>
    -- The name of a production hides a category of the same name.
    by_cases known : name ∈ scope.names
    · rw [symbol, if_pos (by simpa using known)]
      exact .pure (fun _ => .inl known) fun _ => .production (named ▸ known)
    · rw [Term.isComplete, Bool.or_eq_true, contains_iff_mem, or_iff_right known,
        isCategory_iff] at complete
      obtain ⟨category, found, good⟩ := complete
      rw [symbol, if_neg (by simpa using known)]
      exact terminal_makes found good fun _ => .category (named ▸ known) found
  | .token name =>
    rw [Term.isComplete, isCategory_iff] at complete
    obtain ⟨category, found, good⟩ := complete
    rw [symbol]
    exact terminal_makes found good fun _ => .token found
  | .group body =>
    rw [Term.isComplete, Bool.and_eq_true, Bool.not_eq_true'] at complete
    rw [symbol]
    exact .helper (fun inner _ => inner) (fun _ _ some => some)
      (fun inner _ symbols member symbol isPart => .inr ⟨symbols, member, isPart⟩) .group complete.1
      (alternatives_makes named body complete.2)
  | .option body =>
    rw [Term.isComplete, Bool.and_eq_true, Bool.not_eq_true'] at complete
    rw [symbol]
    refine .helper (fun inner _ => optional inner) (fun _ _ _ => by simp [optional])
      (fun inner _ symbols member symbol isPart => .inr ?_) .option complete.1
      (alternatives_makes named body complete.2)
    rcases mem_append.mp member with inside | empty
    · exact ⟨symbols, inside, isPart⟩
    · simp [mem_singleton.mp empty] at isPart
  | .repetition body =>
    rw [Term.isComplete, Bool.and_eq_true, Bool.not_eq_true'] at complete
    rw [symbol]
    refine .helper repeated (fun _ _ _ => by simp [repeated])
      (fun inner self symbols member symbol isPart => ?_) .repetition complete.1
      (alternatives_makes named body complete.2)
    rcases mem_append.mp member with round | empty
    · obtain ⟨others, inside, rfl⟩ := mem_map.mp round
      rcases mem_append.mp isPart with before | last
      · exact .inr ⟨others, inside, before⟩
      · exact .inl (mem_singleton.mp last)
    · simp [mem_singleton.mp empty] at isPart
  | .range => cases complete
termination_by structural term

theorem symbols_makes (named : scope.names = productions.map Production.name) (terms : List Term)
    (complete : sequenceIsComplete scope.names scope.category? terms = true) :
    Makes scope (symbols scope terms) (sequenceHelpers terms)
      (fun rules symbols => symbols.length = terms.length ∧
        ∀ symbol ∈ symbols, Refers scope.names rules symbol)
      (fun grammar symbols =>
        Lowered productions scope.category? grammar (.sequence terms) [symbols]) := by
  match terms with
  | [] => exact .pure (fun _ => ⟨rfl, by simp⟩) fun _ => .nil
  | term :: rest =>
    rw [sequenceIsComplete, Bool.and_eq_true] at complete
    exact .cons (symbol_makes named term complete.1) (symbols_makes named rest complete.2)
      Refers.mono .cons
termination_by structural terms

/-- A complete expression is lowered to right-hand sides that stand for it. -/
theorem alternatives_makes (named : scope.names = productions.map Production.name)
    (branches : Expression) (complete : choiceIsComplete scope.names scope.category? branches = true) :
    Makes scope (alternatives scope branches) (choiceHelpers branches)
      (fun rules inner => inner.length = branches.length ∧
        ∀ symbols ∈ inner, ∀ symbol ∈ symbols, Refers scope.names rules symbol)
      (fun grammar inner => Lowered productions scope.category? grammar (.choice branches) inner) := by
  match branches with
  | [] => exact .pure (fun _ => ⟨rfl, by simp⟩) fun _ => .none
  | terms :: rest =>
    rw [choiceIsComplete, Bool.and_eq_true] at complete
    exact .cons ((symbols_makes named terms complete.1).imp (fun _ _ good => good.2) fun _ _ => id)
      (alternatives_makes named rest complete.2)
      (fun good kept symbol member => (good symbol member).mono kept) .more
termination_by structural branches

end

/-- The productions of a rule: its name with each of its right-hand sides. -/
def sides (rule : Text × Alternatives) : List (Text × List Symbol) :=
  rule.2.map fun symbols => (rule.1, symbols)

theorem mem_sides {body : List Symbol} :
    (name, body) ∈ rules.flatMap sides ↔ ∃ rule ∈ rules, rule.1 = name ∧ body ∈ rule.2 := by
  simp only [mem_flatMap, sides, mem_map, Prod.mk.injEq]
  constructor
  · rintro ⟨rule, member, symbols, inside, rfl, rfl⟩
    exact ⟨rule, member, rfl, inside⟩
  · rintro ⟨rule, member, rfl, inside⟩
    exact ⟨rule, member, body, inside, rfl, rfl⟩

theorem Closed.plain (closed : Closed names rules) {rule : Text × Alternatives}
    (member : rule ∈ rules) : ∀ symbols ∈ rule.2, ∀ symbol ∈ symbols, symbol.isEpsilon = false := by
  intro symbols inside symbol isPart
  have refers := (closed rule member).2 symbols inside symbol isPart
  cases symbol with
  | nonterminal => rfl
  | terminal name category =>
    simpa [Symbol.isEpsilon, Symbol.hasCategory, Symbol.category?, Refers] using refers

theorem Closed.append {more : List (Text × Alternatives)} (closed : Closed names rules)
    (closedToo : Closed names more) : Closed names (rules ++ more) := by
  intro rule member
  rcases mem_append.mp member with early | late
  · exact closed.mono (subset_append_left _ _) early
  · exact closedToo.mono (subset_append_right _ _) late

theorem addRule_adds {alternatives : Alternatives}
    (plain : ∀ symbols ∈ alternatives, ∀ symbol ∈ symbols, symbol.isEpsilon = false) :
    ∀ builder : GrammarBuilder,
      builder.Adds (addRule builder (name, alternatives)) (sides (name, alternatives)) := by
  induction alternatives with
  | nil => exact fun builder => .refl
  | cons symbols rest ih =>
    intro builder
    exact (GrammarBuilder.add_adds (plain symbols (by simp))).trans
      (ih (forall_mem_cons.mp plain).2 (builder.add name symbols))

theorem addRules_adds
    (plain : ∀ rule ∈ rules, ∀ symbols ∈ rule.2, ∀ symbol ∈ symbols, symbol.isEpsilon = false) :
    ∀ builder : GrammarBuilder,
      builder.Adds (rules.foldl addRule builder) (rules.flatMap sides) := by
  induction rules with
  | nil => exact fun builder => .refl
  | cons rule rest ih =>
    intro builder
    exact (addRule_adds (plain rule (by simp)) builder).trans
      (ih (forall_mem_cons.mp plain).2 (addRule builder rule))

theorem productionAlternatives_makes (named : scope.names = productions.map Production.name)
    (complete : production.isComplete scope.names scope.category? = true) :
    Makes scope (productionAlternatives scope production.expression) (choiceHelpers production.body)
      (fun rules inner => inner ≠ [] ∧ ∀ symbols ∈ inner, ∀ symbol ∈ symbols,
        Refers scope.names rules symbol)
      (fun grammar inner =>
        Lowered productions scope.category? grammar (.choice production.body) inner) := by
  obtain ⟨name, expression⟩ := production
  cases expression with
  | none => exact .pure (fun _ => ⟨by simp, by simp⟩) fun _ => .more .nil .none
  | some branches =>
    simp only [Production.isComplete, Production.body, Option.getD_some, Bool.and_eq_true,
      Bool.not_eq_true'] at complete
    refine (alternatives_makes named branches complete.2).imp (fun rules inner good => ⟨?_, good.2⟩)
      fun _ _ => id
    rintro rfl
    cases branches with
    | nil => cases complete.1
    | cons _ _ => cases good.1

theorem addProduction_ok
    (complete : production.isComplete (productions.map Production.name) category? = true)
    (builder : GrammarBuilder) : ∃ after rules,
      addProduction (productions.map Production.name) category? builder production = .ok after ∧
        builder.Adds after (rules.flatMap sides) ∧ rules.map Prod.fst = production.ruleNames ∧
        Closed (productions.map Production.name) rules ∧
        ∀ grammar, OwnsAll grammar rules → ∃ alternatives,
          grammar.Owns production.name alternatives ∧
            Lowered productions category? grammar (.choice production.body) alternatives := by
  obtain ⟨inner, helpers, ran, grown, closed, ⟨filled, refers⟩, meant⟩ :=
    @productionAlternatives_makes production productions
      ⟨production.name, productions.map Production.name, category?⟩ rfl complete {} (by simp [Closed])
  obtain ⟨made, isMade, names⟩ := grown.rules
  have kept : helpers.rules ⊆ (production.name, inner) :: helpers.rules := subset_cons_self _ _
  -- The rule of the production stands in front of those of its helpers.
  have closedAll :
      Closed (productions.map Production.name) ((production.name, inner) :: helpers.rules) := by
    intro rule member
    rcases mem_cons.mp member with rfl | inside
    · exact ⟨filled, fun symbols isSide symbol isPart =>
        (refers symbols isSide symbol isPart).mono kept⟩
    · exact closed.mono kept inside
  refine ⟨_, (production.name, inner) :: helpers.rules, ?_,
    addRules_adds (fun rule => closedAll.plain) builder, ?_, closedAll, ?_⟩
  · simp only [addProduction, ran, bind, Except.bind]
    rfl
  · rw [nil_append] at isMade
    rw [map_cons, isMade, names, Production.ruleNames]
  · intro grammar owns
    exact ⟨inner, owns (production.name, inner) (by simp),
      meant grammar fun rule member => owns rule (kept member)⟩

theorem addProductions_ok {order : List Production}
    (complete : ∀ production ∈ order,
      production.isComplete (productions.map Production.name) category? = true) :
    ∀ builder : GrammarBuilder, ∃ after rules,
      order.foldlM (addProduction (productions.map Production.name) category?) builder = .ok after ∧
        builder.Adds after (rules.flatMap sides) ∧
        rules.map Prod.fst = order.flatMap Production.ruleNames ∧
        Closed (productions.map Production.name) rules ∧
        ∀ grammar, OwnsAll grammar rules → ∀ production ∈ order, ∃ alternatives,
          grammar.Owns production.name alternatives ∧
            Lowered productions category? grammar (.choice production.body) alternatives := by
  induction order with
  | nil => exact fun builder => ⟨builder, [], rfl, .refl, rfl, by simp [Closed], by simp⟩
  | cons production rest ih =>
    intro builder
    obtain ⟨middle, rules, added, adds, names, closed, meant⟩ :=
      addProduction_ok (complete production (by simp)) builder
    obtain ⟨after, more, addedMore, addsMore, namesMore, closedMore, meantMore⟩ :=
      ih (forall_mem_cons.mp complete).2 middle
    refine ⟨after, rules ++ more, ?_, ?_, by simp [names, namesMore], closed.append closedMore, ?_⟩
    · rw [foldlM_cons, added]
      exact addedMore
    · rw [flatMap_append]
      exact adds.trans addsMore
    · intro grammar owns other member
      rcases mem_cons.mp member with rfl | later
      · exact meant grammar fun rule inside => owns rule (by simp [inside])
      · exact meantMore grammar (fun rule inside => owns rule (by simp [inside])) other later

theorem inOrder_perm {first : Production} (distinct : (productions.map Production.name).Nodup)
    (member : first ∈ productions) : (inOrder first productions).Perm productions := by
  refine ((mergeSort_perm _ _).cons first).trans ?_
  -- Only the first production is dropped by its name, wherever it stands among the others.
  induction productions with
  | nil => cases member
  | cons production rest ih =>
    rw [map_cons, nodup_cons] at distinct
    rcases mem_cons.mp member with rfl | later
    · have others : rest.filter (fun other => other.name != first.name) = rest := by
        refine filter_eq_self.mpr fun other inside => ?_
        rw [bne_iff_ne]
        rintro same
        exact distinct.1 (same ▸ mem_map_of_mem inside)
      simp [others]
    · have apart : production.name ≠ first.name := by
        intro same
        exact distinct.1 (same ▸ mem_map_of_mem later)
      rw [filter_cons_of_pos (by simpa using apart)]
      exact (List.Perm.swap _ _ _).trans ((ih distinct.2 later).cons production)

theorem ruleNames_nodup (distinct : (productions.map Production.name).Nodup)
    (free : ∀ production ∈ productions, mark ∉ production.name) :
    (productions.flatMap Production.ruleNames).Nodup := by
  rw [nodup_flatMap]
  have unmarked : ∀ {name other : Text} {number : Nat}, mark ∉ name →
      name ≠ helperName other number := by
    rintro _ other number clean rfl
    simp [helperName] at clean
  -- Helpers of one production differ in their numbers, and those of two in the names in front.
  constructor
  · intro production member
    rw [Production.ruleNames, nodup_cons]
    constructor
    · rintro inside
      obtain ⟨number, -, same⟩ := mem_map.mp inside
      exact unmarked (free production member) same.symm
    · refine List.Nodup.map_on (fun number _ other _ same => ?_) nodup_range'
      exact (helperName_inj (free production member) (free production member) same).2
  · rw [List.Nodup, pairwise_map] at distinct
    refine distinct.imp_of_mem fun {production other} member memberToo apart => ?_
    intro name inside insideToo
    rw [Production.ruleNames, mem_cons, mem_map] at inside insideToo
    rcases inside with rfl | ⟨number, -, rfl⟩
    · rcases insideToo with same | ⟨number, -, same⟩
      · exact apart same
      · exact unmarked (free production member) same.symm
    · rcases insideToo with same | ⟨another, -, same⟩
      · exact unmarked (free other memberToo) same.symm
      · exact apart (helperName_inj (free other memberToo) (free production member) same).1.symm

theorem ownsAll_of_sides {grammar : Grammar}
    (made : grammar.productions.map (fun production => (production.lhs, production.body)) =
      rules.flatMap sides) (distinct : (rules.map Prod.fst).Nodup) : OwnsAll grammar rules := by
  intro rule member body
  have isSide : (∃ production ∈ grammar.productions,
      production.lhs = rule.1 ∧ production.body = body) ↔ (rule.1, body) ∈ rules.flatMap sides := by
    simp [← made]
  rw [isSide, mem_sides]
  constructor
  · rintro ⟨other, inside, same, isBody⟩
    rwa [inj_on_of_nodup_map distinct inside member same] at isBody
  · intro isBody
    exact ⟨rule, member, rfl, isBody⟩

theorem isNonterminal_iff_of_sides {grammar : Grammar} (closed : Closed names rules)
    (made : grammar.productions.map (fun production => (production.lhs, production.body)) =
      rules.flatMap sides) {owner : Text} :
    grammar.isNonterminal owner = true ↔ owner ∈ rules.map Prod.fst := by
  have isSide : grammar.isNonterminal owner = true ↔
      ∃ body, (owner, body) ∈ rules.flatMap sides := by
    simp [← made, Grammar.isNonterminal]
  rw [isSide]
  simp only [mem_sides, mem_map]
  constructor
  · rintro ⟨body, rule, member, same, -⟩
    exact ⟨rule, member, same⟩
  · rintro ⟨rule, member, same⟩
    obtain ⟨body, inside⟩ := exists_mem_of_ne_nil _ (closed rule member).1
    exact ⟨body, rule, member, same, inside⟩

theorem grammar_of_adds {before after : GrammarBuilder} (empty : before.productions = [])
    (started : before.start ≠ []) (owned : before.start ∈ rules.map Prod.fst)
    (closed : Closed names rules) (owns : names ⊆ rules.map Prod.fst)
    (adds : before.Adds after (rules.flatMap sides)) :
    after.grammar = .ok ⟨after.name, after.start, after.productions⟩ ∧
      after.productions.map (fun production => (production.lhs, production.body)) =
        rules.flatMap sides := by
  obtain ⟨made, added, isSides, sound⟩ := adds.productions
  rw [empty, nil_append] at added
  rw [← added] at isSides sound
  have nonterminal : ∀ owner,
      Grammar.isNonterminal ⟨after.name, after.start, after.productions⟩ owner = true ↔
        owner ∈ rules.map Prod.fst :=
    fun owner => isNonterminal_iff_of_sides closed isSides
  refine ⟨GrammarBuilder.grammar_eq_ok.mpr ⟨rfl, ?_, ?_, ?_⟩, isSides⟩
  · rwa [adds.start started]
  · rw [nonterminal, adds.start started]
    exact owned
  · refine fun production member => (GrammarBuilder.checkSymbols_eq_ok 0).mpr fun symbol isPart => ?_
    obtain ⟨alone, inBody⟩ := sound production member symbol isPart
    refine ⟨alone, fun name isName => ?_⟩
    -- A non-terminal of a body is a production, which has a rule, or a helper, which is one.
    have isSide : (production.lhs, production.body) ∈ rules.flatMap sides := isSides ▸
        mem_map_of_mem (f := fun production => (production.lhs, production.body)) member
    obtain ⟨rule, isRule, -, inside⟩ := mem_sides.mp isSide
    have refers := (closed rule isRule).2 _ inside symbol (inBody name isName)
    rw [isName] at refers
    exact (nonterminal name).mpr (refers.elim (fun known => owns known) id)

theorem names_subset_ruleNames :
    productions.map Production.name ⊆ productions.flatMap Production.ruleNames := by
  intro name member
  obtain ⟨production, inside, rfl⟩ := mem_map.mp member
  exact mem_flatMap.mpr ⟨production, inside, by simp [Production.ruleNames]⟩

theorem toGrammar_covers {name start : Text} (distinct : (productions.map Production.name).Nodup)
    (identifiers : ∀ production ∈ productions, production.name ≠ [] ∧ mark ∉ production.name)
    (complete : ∀ production ∈ productions,
      production.isComplete (productions.map Production.name) category? = true)
    (started : start ∈ productions.map Production.name) :
    ∃ grammar, toGrammar name productions start category? = .ok grammar ∧
      Covers productions category? grammar ∧
      ∀ owner, grammar.isNonterminal owner = true ↔
        owner ∈ productions.flatMap Production.ruleNames := by
  obtain ⟨source, inside, isStart⟩ := mem_map.mp started
  cases found : productions.find? (fun production => production.name == start) with
  | none => exact absurd (by simpa using isStart) (find?_eq_none.mp found source inside)
  | some first =>
    have member : first ∈ productions := mem_of_find?_eq_some found
    -- Rules come in another order than the productions, which changes none of their names.
    have order := inOrder_perm distinct member
    have namesPerm := order.flatMap_right Production.ruleNames
    obtain ⟨after, rules, added, adds, names, closed, meant⟩ :=
      addProductions_ok (fun production member => complete production (order.mem_iff.mp member))
        ({ name, start } : GrammarBuilder)
    have named : ∀ owner, owner ∈ rules.map Prod.fst ↔
        owner ∈ productions.flatMap Production.ruleNames := by
      intro owner
      rw [names, namesPerm.mem_iff]
    have known : productions.map Production.name ⊆ rules.map Prod.fst :=
      fun owner isName => (named owner).mpr (names_subset_ruleNames isName)
    have nonempty : start ≠ [] := isStart ▸ (identifiers source inside).1
    obtain ⟨built, isSides⟩ := grammar_of_adds rfl nonempty (known started) closed known adds
    have rulesDistinct : (rules.map Prod.fst).Nodup := by
      rw [names, namesPerm.nodup_iff]
      exact ruleNames_nodup distinct fun production isOne => (identifiers production isOne).2
    refine ⟨⟨after.name, after.start, after.productions⟩, ?_, fun production isOne => ?_,
      fun owner => ?_⟩
    · simp only [toGrammar, found, added, bind, Except.bind]
      exact built
    · exact meant _ (ownsAll_of_sides isSides rulesDistinct) production (order.mem_iff.mpr isOne)
    · rw [isNonterminal_iff_of_sides closed isSides, named]

theorem describes_name_iff (distinct : (productions.map Production.name).Nodup)
    (member : production ∈ productions) {word : List Category} :
    Describes productions category? (.term (.name production.name)) word ↔
      Describes productions category? (.choice production.body) word := by
  constructor
  · intro describes
    generalize isName : production.name = name at describes
    cases describes with
    | production isOne body => rwa [inj_on_of_nodup_map distinct member isOne isName]
    | category free _ => exact absurd (isName ▸ mem_map_of_mem member) free
  · exact .production member

/--
Lowering keeps the language of every production.

Productions with distinct names, the mark in none of them and a meaning for all they hold make a grammar.
From the name of each production it derives exactly the texts that the expression describes.
Its other non-terminals are the helpers, all apart from each other and from the productions.
-/
theorem lowering_preserves_language {name start : Text} {productions : List Production}
    {category? : Text → Option Category} (distinct : (productions.map Production.name).Nodup)
    (identifiers : ∀ production ∈ productions, production.name ≠ [] ∧ mark ∉ production.name)
    (complete : ∀ production ∈ productions,
      production.isComplete (productions.map Production.name) category? = true)
    (started : start ∈ productions.map Production.name) :
    ∃ grammar, toGrammar name productions start category? = .ok grammar ∧
      (∀ text, read name text = (productions, []) → load name text start category? = .ok grammar) ∧
      (∀ production ∈ productions, ∀ word, grammar.Produces [.nonterminal production.name] word ↔
          Describes productions category? (.choice production.body) word) ∧
      (productions.flatMap Production.ruleNames).Nodup ∧
      ∀ owner, grammar.isNonterminal owner = true ↔
        owner ∈ productions.flatMap Production.ruleNames := by
  obtain ⟨grammar, made, covers, owners⟩ :=
    @toGrammar_covers productions category? name start distinct identifiers complete started
  refine ⟨grammar, made, fun text isText => ?_, fun production member word => ?_,
    ruleNames_nodup distinct fun production member => (identifiers production member).2, owners⟩
  · rw [load, isText]
    exact made
  · rw [← describes_name_iff distinct member]
    exact covers.produces_iff (.production (mem_map_of_mem member))

/-- Sums of names and of sums in brackets, with a mark at their end or not. -/
def sums : List Production :=
  [⟨"S", some [[.name "T", .repetition [[.group [[.token "+"], [.token "-"]], .name "T"]],
      .option [[.token ";"]]]]⟩,
    ⟨"T", some [[.name "id"], [.token "(", .name "S", .token ")"]]⟩,
    ⟨"N", none⟩]

/-- Categories for the words of sums. -/
def sumCategory? (name : Text) : Option Category :=
  ([("id", 1), ("+", 2), ("-", 3), (";", 4), ("(", 5), (")", 6)] : List (Text × Category)).lookup
    name

/-- Sums as they are written. -/
def sumsText : Text :=
  "S = T \x7b ( \"+\" | \"-\" ) T \x7d [ \";\" ] . T = id | \"(\" S \")\" . N = ."

set_option maxRecDepth 100000 in
theorem read_sumsText : read "sums" sumsText = (sums, []) := by
  rfl

/-- Two names with a minus between them are a sum, by way of two helpers. -/
theorem lowering_preserves_sums : ∃ grammar, load "sums" sumsText "S" sumCategory? = .ok grammar ∧
      grammar.Produces [.nonterminal "S"] [1, 3, 1] := by
  obtain ⟨grammar, -, loaded, language, -⟩ :=
    @lowering_preserves_language "sums" "S" sums sumCategory? (by decide) (by decide) (by decide)
      (by decide)
  refine ⟨grammar, loaded _ read_sumsText, (language _ mem_cons_self _).mpr ?_⟩
  have name : Describes sums sumCategory? (.term (.name "T")) [1] :=
    .production (mem_cons_of_mem _ mem_cons_self)
      (.branch mem_cons_self (.cons (.category (by decide) rfl) .nil))
  have minus : Describes sums sumCategory? (.term (.group [[.token "+"], [.token "-"]])) [3] :=
    .group (.branch (mem_cons_of_mem _ mem_cons_self) (.cons (.token rfl) .nil))
  have round : Describes sums sumCategory?
      (.choice [[.group [[.token "+"], [.token "-"]], .name "T"]]) [3, 1] :=
    .branch mem_cons_self (.cons minus (.cons name .nil))
  exact .branch mem_cons_self (.cons name (.cons (.again round .done) (.cons .missing .nil)))

end Ebnf

end ThreeAddress

import ThreeAddress.Proofs.Grammar.Follow

/-!
What the analysis of a grammar answers.

FIRST sets hold what derived forms lead with, and FOLLOW sets what stands behind a non-terminal in them.
Where every non-terminal is reachable, the latter is what stands behind it in front of the end of input.
-/

namespace ThreeAddress

open List

namespace Grammar

/-- What the forms derived from some symbols lead with: a terminal of an open category, or nothing at all. -/
def Leads (grammar : Grammar) (symbols : List Symbol) (category : Category) : Prop :=
  (category = Category.epsilon ∧ grammar.Derives symbols []) ∨
    (0 ≤ category ∧ ∃ word rest, grammar.Derives symbols (.terminal word category :: rest))

/-- A symbol of a grammar: a non-terminal with rules, or a terminal that rules may refer to. -/
def Knows (grammar : Grammar) : Symbol → Prop
  | .nonterminal name => grammar.isNonterminal name = true
  | .terminal _ category => 0 ≤ category ∨ category = Category.epsilon

/-- A non-terminal that occurs in a form derived from the start symbol. -/
def Reachable (grammar : Grammar) (name : Text) : Prop :=
  ∃ before after, grammar.Derives [.nonterminal grammar.start]
    (before ++ .nonterminal name :: after)

def endMark : Symbol := .terminal "$" Category.endOfInput

/-- The rule of a new start symbol, with the end of input behind the old one. -/
def endRule (grammar : Grammar) (fresh : Text) : Production :=
  { serial := grammar.size, lhs := fresh, rhs := [.nonterminal grammar.start, endMark] }

/-- A grammar with a new start symbol, behind which the end of input is read. -/
def augmented (grammar : Grammar) (fresh : Text) : Grammar :=
  { grammar with start := fresh, productions := grammar.productions ++ [grammar.endRule fresh] }

variable {grammar : Grammar} {category : Category} {symbols : List Symbol}

theorem shows_iff_leads (wellFormed : grammar.WellFormed) (unreserved : Unreserved symbols) :
    grammar.Shows symbols category ↔ grammar.Leads symbols category := by
  rw [Shows, Leads, runVanishes_iff]
  refine or_congr_right ⟨?_, ?_⟩
  · rintro ⟨-, begins⟩
    exact ⟨begins.nonneg wellFormed unreserved, runBegins_iff.mp begins⟩
  · rintro ⟨unreserved, derives⟩
    exact ⟨ne_epsilon_of_nonneg unreserved, runBegins_iff.mpr derives⟩

theorem mem_firstOf_iff_leads (wellFormed : grammar.WellFormed) (unreserved : Unreserved symbols) :
    category ∈ firstOf grammar.first symbols ↔ grammar.Leads symbols category :=
  (mem_firstOf_iff_shows wellFormed unreserved).trans (shows_iff_leads wellFormed unreserved)

variable {sets : CategorySets} {name : Text}

/-- The set of a name is that of the run of the name alone. -/
theorem mem_firstOf_single :
    category ∈ firstOf sets [.nonterminal name] ↔ category ∈ sets.get name := by
  simp only [firstOf]
  split
  · next vanishes =>
    simp only [CategorySet.hasEpsilon_iff] at vanishes
    by_cases isEmpty : category = Category.epsilon <;> simp [isEmpty, vanishes]
  · rfl

/-- Sets that are sound hold what derived forms lead with, if not all of it. -/
theorem FirstSound.leads (wellFormed : grammar.WellFormed) (sound : grammar.FirstSound sets)
    (found : category ∈ sets.get name) : grammar.Leads [.nonterminal name] category :=
  have unreserved : Unreserved [.nonterminal name] := by simp [Unreserved]
  (shows_iff_leads wellFormed unreserved).mp (sound.shows unreserved (mem_firstOf_single.mpr found))

/-- The FIRST set of a non-terminal holds what the forms derived from it lead with. -/
theorem mem_first_iff_leads (wellFormed : grammar.WellFormed) :
    category ∈ grammar.first.get name ↔ grammar.Leads [.nonterminal name] category := by
  rw [← mem_firstOf_iff_leads wellFormed (by simp [Unreserved]), mem_firstOf_single]

/-- What a run shows does not depend on the empty texts in it. -/
theorem firstOf_filter (sets : CategorySets) (symbols : List Symbol) :
    firstOf sets (symbols.filter fun symbol => !symbol.isEpsilon) = firstOf sets symbols := by
  induction symbols with
  | nil => rfl
  | cons symbol rest ih =>
    cases symbol with
    | nonterminal name =>
      have kept : (Symbol.nonterminal name).isEpsilon = false := rfl
      rw [filter_cons_of_pos (by simp [kept]), firstOf, firstOf, ih]
    -- An empty text gives way to what is behind it, and any other terminal hides it.
    | terminal name category =>
      cases vanishes : (Symbol.terminal name category).isEpsilon with
      | true => rw [filter_cons_of_neg (by simp [vanishes]), ih, firstOf, if_pos vanishes]
      | false =>
        rw [filter_cons_of_pos (by simp [vanishes])]
        simp [firstOf, vanishes]

/-- Symbols of a grammar have no reserved category but that of the empty text. -/
theorem unreserved_filter (known : ∀ symbol ∈ symbols, grammar.Knows symbol) :
    Unreserved (symbols.filter fun symbol => !symbol.isEpsilon) := by
  intro name category member
  obtain ⟨inside, kept⟩ := mem_filter.mp member
  rcases known _ inside with unreserved | rfl
  · exact unreserved
  · simp [Symbol.isEpsilon, Symbol.hasCategory, Symbol.category?] at kept

theorem firstOfSequence_eq (wellFormed : grammar.WellFormed)
    (known : ∀ symbol ∈ symbols, grammar.Knows symbol) :
    (Analysis.ofGrammar grammar).firstOfSequence symbols = .ok (firstOf grammar.first symbols) :=
  findFirst_eq fun _ member =>
    (first_invariant wellFormed).keyed ▸ wellFormed.mem_nonterminals.mpr (known _ member)

/-! The end of input behind the start symbol. -/

variable {form later : List Symbol}

theorem Derives.defined (wellFormed : grammar.WellFormed) (derives : grammar.Derives form later)
    (known : ∀ name, .nonterminal name ∈ form → grammar.isNonterminal name = true) :
    ∀ name, .nonterminal name ∈ later → grammar.isNonterminal name = true := by
  induction derives with
  | refl => exact known
  | tail _ step ih =>
    obtain ⟨before, after, member⟩ := step
    intro name found
    simp only [mem_append] at found
    -- What a step leaves alone was known before, and the rest is the body of a rule.
    rcases found with early | inside | late
    · exact ih name (by simp [early])
    · exact wellFormed.defined _ member name inside
    · exact ih name (by simp [late])

theorem Derives.unreserved (wellFormed : grammar.WellFormed) (derives : grammar.Derives form later)
    (start : Unreserved form) : Unreserved later := by
  induction derives with
  | refl => exact start
  | tail _ step ih =>
    obtain ⟨before, after, member⟩ := step
    intro name category found
    simp only [mem_append] at found
    rcases found with early | inside | late
    · exact ih name category (by simp [early])
    · exact wellFormed.unreserved _ member name category inside
    · exact ih name category (by simp [late])

theorem Derives.augmented (derives : grammar.Derives form later) (fresh : Text)
    : (grammar.augmented fresh).Derives form later := by
  induction derives with
  | refl => exact .refl _
  | tail _ step ih =>
    obtain ⟨before, after, member⟩ := step
    exact Relation.ReflTransGen.tail ih (.expand before after (mem_append_left _ member))

theorem augmented_derives (fresh : Text)
    (derives : grammar.Derives [.nonterminal grammar.start] form) :
    (grammar.augmented fresh).Derives [.nonterminal fresh] (form ++ [endMark]) := by
  -- The new rule is applied once, and all later steps stay in front of the end of input.
  have first : (grammar.augmented fresh).Derives [.nonterminal (grammar.endRule fresh).lhs]
      (grammar.endRule fresh).body :=
    derives_body (mem_append_right _ (mem_singleton_self _))
  have behind := (derives.augmented fresh).between [] [endMark]
  exact first.trans behind

variable {fresh : Text}

/-- Forms derived from the new start symbol end with the end of input, once it has given way. -/
theorem form_of_augmented (wellFormed : grammar.WellFormed)
    (new : grammar.isNonterminal fresh = false)
    (derives : (grammar.augmented fresh).Derives [.nonterminal fresh] form) :
    form = [.nonterminal fresh] ∨
      ∃ inner, form = inner ++ [endMark] ∧ grammar.Derives [.nonterminal grammar.start] inner := by
  induction derives with
  | refl => exact .inl rfl
  | tail _ step ih =>
    obtain ⟨before, after, member⟩ := step
    rename_i production _
    right
    rcases mem_append.mp member with old | isNew
    · -- A rule of the grammar applies inside of the form, since the new symbol has none there.
      rcases ih with single | ⟨inner, shape, derived⟩
      · have alone : production.lhs = fresh := by
          cases before with
          | nil => simpa using (List.cons.inj single).1
          | cons head rest => simp at single
        rw [← alone, isNonterminal_lhs old] at new
        cases new
      · rcases append_eq_append_cons shape.symm with ⟨rest, rfl, rfl⟩ | ⟨rest, rfl, behind⟩
        · exact ⟨before ++ (production.body ++ rest), by simp,
            Relation.ReflTransGen.tail derived (.expand before rest old)⟩
        · cases rest <;> simp [endMark] at behind
    · cases mem_singleton.mp isNew
      rcases ih with single | ⟨inner, shape, derived⟩
      · refine ⟨[.nonterminal grammar.start], ?_, .refl _⟩
        cases before with
        | nil =>
          obtain rfl : after = [] := (List.cons.inj single).2
          rfl
        | cons head rest => simp at single
      · -- The new symbol does not occur in forms derived from the old one.
        have inside : .nonterminal fresh ∈ inner := by
          have found : Symbol.nonterminal fresh ∈ inner ++ [endMark] := by
            rw [← shape]
            simp [endRule]
          simpa [endMark] using found
        have known := derived.defined wellFormed (by simpa using wellFormed.started) fresh inside
        rw [new] at known
        cases known

theorem follows_iff_augmented (wellFormed : grammar.WellFormed)
    (reachable : ∀ other, grammar.isNonterminal other = true → grammar.Reachable other)
    (new : grammar.isNonterminal fresh = false) :
    grammar.Follows name category ↔ ∃ before word after,
      (grammar.augmented fresh).Derives [.nonterminal fresh]
        (before ++ .nonterminal name :: .terminal word category :: after) := by
  rw [follows_iff_followedBy]
  constructor
  · rintro (⟨rfl, before, derives⟩ | ⟨outer, before, word, after, known, derives⟩)
    · exact ⟨before, _, [], by simpa [endMark] using augmented_derives fresh derives⟩
    · obtain ⟨front, back, reaches⟩ := reachable outer known
      have inside := derives.between front back
      simp only [append_assoc, cons_append] at inside
      have whole := augmented_derives fresh (reaches.trans inside)
      exact ⟨front ++ before, word, after ++ back ++ [endMark], by simpa using whole⟩
  · rintro ⟨before, word, after, derives⟩
    rcases form_of_augmented wellFormed new derives with single | ⟨inner, shape, derived⟩
    · have length := congrArg List.length single
      simp only [length_append, length_cons, length_nil] at length
      omega
    · -- What stands behind the name is the end of input, or something in front of it.
      rcases eq_nil_or_concat after with rfl | ⟨rest, last, rfl⟩
      · have split : before ++ [.nonterminal name] ++ [.terminal word category] =
            inner ++ [endMark] := by simpa using shape
        obtain ⟨rfl, isEnd⟩ := append_inj' split rfl
        cases isEnd
        exact .inl ⟨rfl, before, derived⟩
      · have split : before ++ .nonterminal name :: .terminal word category :: rest ++ [last] =
            inner ++ [endMark] := by simpa using shape
        obtain ⟨rfl, -⟩ := append_inj' split rfl
        exact .inr ⟨grammar.start, before, word, rest, wellFormed.started, derived⟩

end Grammar

namespace Analysis

variable {grammar : Grammar}

/--
FIRST sets are exact.

The pass comes to an end with sets that may lack members but hold no others, and the sweeps start from them.
All sweeps end because nothing is left to be added, and the sets hold what derived forms lead with.
So do the answers for sequences of symbols, in which an empty text stands for nothing.
-/
theorem first_exact (assembled : grammar.Assembled) :
    (∃ pass, grammar.firstPass = .ok pass ∧ (∀ name category, category ∈ pass.sets.get name →
        grammar.Leads [.nonterminal name] category) ∧
      (ofGrammar grammar).first = stabilize grammar.firstSweep grammar.sweepBudget pass.sets) ∧
      (grammar.firstSweep (ofGrammar grammar).first = (ofGrammar grammar).first ∧
      grammar.followSweep (ofGrammar grammar).first (ofGrammar grammar).follow =
        (ofGrammar grammar).follow) ∧
      (∀ name, grammar.isNonterminal name = true → ∃ set,
        (ofGrammar grammar).first? name = some set ∧
        (∀ category, category ∈ set ↔ grammar.Leads [.nonterminal name] category) ∧
        ((ofGrammar grammar).derivesEpsilon name = true ↔ grammar.Derives [.nonterminal name] [])) ∧
      ∀ symbols, (∀ symbol ∈ symbols, grammar.Knows symbol) → ∃ set,
        (ofGrammar grammar).firstOfSequence symbols = .ok set ∧
        ∀ category, category ∈ set ↔
          grammar.Leads (symbols.filter fun symbol => !symbol.isEpsilon) category := by
  have wellFormed := assembled.wellFormed
  refine ⟨?_, ⟨Grammar.first_fixed wellFormed, Grammar.follow_fixed wellFormed⟩,
    fun name known => ?_, fun symbols known => ?_⟩
  · obtain ⟨pass, done, kept⟩ := Grammar.firstPass_yields wellFormed
    refine ⟨pass, done, fun name category found => kept.1.sound.leads wellFormed found, ?_⟩
    simp only [ofGrammar, Grammar.first, Grammar.begun, done]
    rfl
  · have listed : name ∈ grammar.first.keys :=
      (Grammar.first_invariant wellFormed).keyed ▸ wellFormed.mem_nonterminals.mpr known
    refine ⟨_, CategorySets.lookup_of_mem_keys listed,
      fun category => Grammar.mem_first_iff_leads wellFormed, ?_⟩
    rw [derivesEpsilon, CategorySet.hasEpsilon_iff]
    refine (Grammar.mem_first_iff_leads wellFormed).trans ?_
    simp [Grammar.Leads, Category.epsilon]
  · refine ⟨_, Grammar.firstOfSequence_eq wellFormed known, fun category => ?_⟩
    rw [← Grammar.firstOf_filter]
    exact Grammar.mem_firstOf_iff_leads wellFormed (Grammar.unreserved_filter known)

/-- Two non-terminals that refer to each other in front. -/
def mutualRules : GrammarBuilder :=
  (((GrammarBuilder.mk "Mutual" [] []).add "A" [.nonterminal "B", .terminal "a" 1]).add
    "B" [.nonterminal "A", .terminal "b" 2]).add "B" []

/-- Their grammar, which is left-recursive. -/
def mutualGrammar : Grammar := ⟨"Mutual", "A", mutualRules.productions⟩

theorem mutualGrammar_assembled : mutualGrammar.Assembled :=
  ⟨mutualRules, ((GrammarBuilder.Assembled.new "Mutual").extended rfl rfl).extended rfl rfl
    |>.extended rfl rfl, rfl⟩

/-- The second one vanishes and begins as the first one does, but with nothing else. -/
theorem first_exact_of_mutual : mutualGrammar.Assembled ∧
    mutualGrammar.isNonterminal "B" = true ∧ mutualGrammar.Leads [.nonterminal "B"] 1 ∧
    mutualGrammar.Leads [.nonterminal "B"] Category.epsilon ∧
    ¬ mutualGrammar.Leads [.nonterminal "B"] 2 := by
  obtain ⟨-, -, names, -⟩ := first_exact mutualGrammar_assembled
  obtain ⟨set, found, exact, -⟩ := names "B" (by decide)
  have computed : (ofGrammar mutualGrammar).first? "B" = some [Category.epsilon, 1] := by
    decide +kernel
  cases found.symm.trans computed
  exact ⟨mutualGrammar_assembled, by decide, (exact 1).mp (by decide),
    (exact Category.epsilon).mp (by decide), fun leads => absurd ((exact 2).mpr leads) (by decide)⟩

/--
FOLLOW sets are exact.

The pass comes to an end with sets that may lack members but hold nothing else, and the sweeps start from them.
A terminal follows a non-terminal where it stands behind it in a form derived from any non-terminal.
The end of input follows it where it ends a form derived from the start symbol, and nothing else follows.
If every non-terminal is reachable, both say what stands behind it in forms with the end of input in them.
-/
theorem follow_exact (assembled : grammar.Assembled) {name : Text}
    (known : grammar.isNonterminal name = true) :
    ∃ set, (ofGrammar grammar).follow? name = some set ∧
      (∃ pass, grammar.followPass (ofGrammar grammar).first = .ok pass ∧
        (∀ category ∈ pass.sets.get name, category ∈ set) ∧
        (ofGrammar grammar).follow =
          stabilize (grammar.followSweep (ofGrammar grammar).first) grammar.sweepBudget pass.sets) ∧
      (∀ category, 0 ≤ category → (category ∈ set ↔ ∃ outer before word after,
        grammar.isNonterminal outer = true ∧ grammar.Derives [.nonterminal outer]
          (before ++ .nonterminal name :: .terminal word category :: after))) ∧
      (Category.endOfInput ∈ set ↔ ∃ before,
        grammar.Derives [.nonterminal grammar.start] (before ++ [.nonterminal name])) ∧
      Category.epsilon ∉ set ∧
      ((∀ other, grammar.isNonterminal other = true → grammar.Reachable other) →
        ∀ fresh, grammar.isNonterminal fresh = false → ∀ category,
          (category ∈ set ↔ ∃ before word after,
            (grammar.augmented fresh).Derives [.nonterminal fresh]
              (before ++ .nonterminal name :: .terminal word category :: after))) := by
  have wellFormed := assembled.wellFormed
  have listed : name ∈ (grammar.follow grammar.first).keys :=
    (Grammar.follow_invariant wellFormed).keyed ▸ wellFormed.mem_nonterminals.mpr known
  refine ⟨_, CategorySets.lookup_of_mem_keys listed, ?_, fun category unreserved => ?_, ?_, ?_, ?_⟩
  · obtain ⟨pass, done, kept⟩ := Grammar.followPass_yields wellFormed
    refine ⟨pass, done, fun category found => ?_, ?_⟩
    · exact (Grammar.mem_follow wellFormed).mpr (kept.sound name category found)
    · simp only [ofGrammar, Grammar.follow, done]
      rfl
  · refine (Grammar.mem_follow wellFormed).trans (Grammar.follows_iff_followedBy.trans ?_)
    refine or_iff_right fun ⟨isEnd, _⟩ => ?_
    rw [isEnd] at unreserved
    exact absurd unreserved (by decide)
  · refine (Grammar.mem_follow wellFormed).trans (Grammar.follows_iff_followedBy.trans ?_)
    refine ⟨?_, fun ends => .inl ⟨rfl, ends⟩⟩
    rintro (⟨-, ends⟩ | ⟨outer, before, word, after, -, derives⟩)
    · exact ends
    · -- Derived forms hold no terminal with a reserved category.
      have unreserved := derives.unreserved wellFormed (by simp [Grammar.Unreserved]) word
        Category.endOfInput (by simp)
      exact absurd unreserved (by decide)
  · intro found
    rcases ((Grammar.mem_follow wellFormed).mp found).unreserved wellFormed with reserved | isEnd
    · exact absurd reserved (by decide)
    · exact absurd isEnd (by decide)
  · intro reachable fresh new category
    exact (Grammar.mem_follow wellFormed).trans
      (Grammar.follows_iff_augmented wellFormed reachable new)

/-- The first one stands at the end or in front of one terminal, and never in front of the other. -/
theorem follow_exact_of_mutual : mutualGrammar.Assembled ∧ mutualGrammar.isNonterminal "A" = true ∧
    (∃ before, mutualGrammar.Derives [.nonterminal "A"] (before ++ [.nonterminal "A"])) ∧
    (∃ outer before word after, mutualGrammar.isNonterminal outer = true ∧
      mutualGrammar.Derives [.nonterminal outer]
        (before ++ .nonterminal "A" :: .terminal word 2 :: after)) ∧
    ¬ ∃ outer before word after, mutualGrammar.isNonterminal outer = true ∧
      mutualGrammar.Derives [.nonterminal outer]
        (before ++ .nonterminal "A" :: .terminal word 1 :: after) := by
  obtain ⟨set, found, -, behind, ended, -⟩ :=
    follow_exact mutualGrammar_assembled (show mutualGrammar.isNonterminal "A" = true by decide)
  have computed : (ofGrammar mutualGrammar).follow? "A" = some [Category.endOfInput, 2] := by
    decide +kernel
  cases found.symm.trans computed
  exact ⟨mutualGrammar_assembled, by decide, ended.mp (by decide),
    (behind 2 (by decide)).mp (by decide),
    fun stands => absurd ((behind 1 (by decide)).mpr stands) (by decide)⟩

end Analysis

end ThreeAddress

import ThreeAddress.Proofs.Table.Contents
import ThreeAddress.Proofs.Table.Prediction

/-!
What the conflicts of a parsing table tell about its grammar.

A cell has one place for FOLLOW and one for FIRST, so a conflict shows where the two of them meet.
Where two productions begin with one lookahead, or two of them vanish before it, one was chosen for its place before, and no conflict shows it.
-/

namespace ThreeAddress

open List

namespace Grammar

variable {grammar : Grammar}

/-- FIRST and FOLLOW choose different productions for a cell: the first that vanishes and the last that begins with the lookahead. -/
structure Collides (grammar : Grammar) (name : Text) (lookahead : Category)
    (vanishing leading : Production) : Prop where
  followed : grammar.FollowedBy name lookahead
  vanishes : grammar.FirstWith name (fun listed => grammar.Derives listed.body []) vanishing
  leads : grammar.LastWith name (fun listed => grammar.Leads listed.body lookahead) leading
  apart : vanishing ≠ leading

/-- No two productions of one non-terminal can begin with the same terminal. -/
def BeginningsApart (grammar : Grammar) : Prop :=
  ∀ left ∈ grammar.productions, ∀ right ∈ grammar.productions, left.lhs = right.lhs →
    left ≠ right → ∀ lookahead, 0 ≤ lookahead →
      ¬ (grammar.Leads left.body lookahead ∧ grammar.Leads right.body lookahead)

/-- No two productions of one non-terminal can vanish before the same lookahead. -/
def VanishingsApart (grammar : Grammar) : Prop :=
  ∀ left ∈ grammar.productions, ∀ right ∈ grammar.productions, left.lhs = right.lhs →
    left ≠ right → ∀ lookahead, ¬ (grammar.Derives left.body [] ∧ grammar.Derives right.body [] ∧
      grammar.FollowedBy left.lhs lookahead)

variable {name : Text} {production : Production} {lookahead : Category}

theorem FollowedBy.proper (wellFormed : grammar.WellFormed)
    (followed : grammar.FollowedBy name lookahead) : lookahead ≠ Category.epsilon := by
  rintro rfl
  rcases (follows_iff_followedBy.mpr followed).unreserved wellFormed with open_ | ended
  · exact absurd open_ (by decide)
  · exact absurd ended (by decide)

theorem predicts_iff_leads (wellFormed : grammar.WellFormed)
    (member : production ∈ grammar.productions) :
    grammar.Predicts production lookahead ↔
      (0 ≤ lookahead ∧ grammar.Leads production.body lookahead) ∨
        grammar.Derives production.body [] ∧ grammar.FollowedBy production.lhs lookahead := by
  refine or_congr_left ?_
  constructor
  · intro begins
    have unreserved := (runBegins_iff.mpr begins).nonneg wellFormed (wellFormed.unreserved_body member)
    exact ⟨unreserved, .inr ⟨unreserved, begins⟩⟩
  · rintro ⟨unreserved, isEmpty | ⟨-, begins⟩⟩
    · exact absurd isEmpty.1 (ne_epsilon_of_nonneg unreserved)
    · exact begins

theorem IsLL1.not_collides (wellFormed : grammar.WellFormed) (ll1 : grammar.IsLL1)
    {vanishing leading : Production} : ¬ grammar.Collides name lookahead vanishing leading := by
  intro collides
  obtain ⟨firstIn, rfl, vanishes⟩ := collides.vanishes.listed
  obtain ⟨lastIn, same, leads⟩ := collides.leads.listed
  refine collides.apart (ll1.unique firstIn lastIn same.symm
    ((predicts_iff_leads wellFormed firstIn).mpr (.inr ⟨vanishes, collides.followed⟩))
    ((predicts_iff_leads wellFormed lastIn).mpr (.inl ⟨?_, leads⟩)))
  rcases leads with isEmpty | unreserved
  · exact absurd isEmpty.1 (collides.followed.proper wellFormed)
  · exact unreserved.1

/-- Where one production vanishes before what another begins with, FIRST and FOLLOW meet, provided that neither of them has a choice. -/
theorem collides_of_apart (beginnings : grammar.BeginningsApart)
    (vanishings : grammar.VanishingsApart) {vanishing leading : Production}
    (firstIn : vanishing ∈ grammar.productions) (lastIn : leading ∈ grammar.productions)
    (same : vanishing.lhs = leading.lhs) (apart : vanishing ≠ leading) {lookahead : Category}
    (unreserved : 0 ≤ lookahead) (leads : grammar.Leads leading.body lookahead)
    (vanishes : grammar.Derives vanishing.body [])
    (followed : grammar.FollowedBy vanishing.lhs lookahead) :
    grammar.Collides vanishing.lhs lookahead vanishing leading := by
  obtain ⟨first, isFirst⟩ := exists_firstWith firstIn
    (fun listed => grammar.Derives listed.body []) vanishes
  obtain ⟨last, isLast⟩ := exists_lastWith lastIn
    (fun listed => grammar.Leads listed.body lookahead) leads
  obtain ⟨member, named, alsoVanishes⟩ := isFirst.listed
  obtain ⟨lastMember, lastNamed, alsoLeads⟩ := isLast.listed
  have onlyFirst : first = vanishing := by
    by_contra other
    exact vanishings vanishing firstIn first member named.symm (Ne.symm other) lookahead
      ⟨vanishes, alsoVanishes, followed⟩
  have onlyLast : last = leading := by
    by_contra other
    exact beginnings leading lastIn last lastMember lastNamed.symm (Ne.symm other) lookahead
      unreserved ⟨leads, alsoLeads⟩
  subst onlyFirst onlyLast
  exact ⟨followed, isFirst, same ▸ isLast, apart⟩

/-- A grammar is LL(1) exactly if its productions begin apart, vanish apart, and FIRST and FOLLOW nowhere choose different ones. -/
theorem isLL1_iff_apart (wellFormed : grammar.WellFormed) : grammar.IsLL1 ↔
    (∀ name lookahead vanishing leading, ¬ grammar.Collides name lookahead vanishing leading) ∧
      grammar.BeginningsApart ∧ grammar.VanishingsApart := by
  constructor
  · intro ll1
    refine ⟨fun _ _ _ _ => ll1.not_collides wellFormed, ?_, ?_⟩
    · rintro left leftIn right rightIn same apart lookahead unreserved ⟨one, other⟩
      exact ll1 left leftIn right rightIn same apart lookahead
        ⟨(predicts_iff_leads wellFormed leftIn).mpr (.inl ⟨unreserved, one⟩),
          (predicts_iff_leads wellFormed rightIn).mpr (.inl ⟨unreserved, other⟩)⟩
    · rintro left leftIn right rightIn same apart lookahead ⟨one, other, followed⟩
      exact ll1 left leftIn right rightIn same apart lookahead
        ⟨.inr ⟨one, followed⟩, .inr ⟨other, same ▸ followed⟩⟩
  · rintro ⟨free, beginnings, vanishings⟩ left leftIn right rightIn same apart lookahead ⟨one, other⟩
    -- Both begin with the lookahead, both vanish before it, or FIRST and FOLLOW meet.
    rcases (predicts_iff_leads wellFormed leftIn).mp one with ⟨unreserved, leads⟩ | ⟨gone, followed⟩
    · rcases (predicts_iff_leads wellFormed rightIn).mp other with
        ⟨-, alsoLeads⟩ | ⟨gone, followed⟩
      · exact beginnings left leftIn right rightIn same apart lookahead unreserved ⟨leads, alsoLeads⟩
      · exact free _ _ _ _ (collides_of_apart beginnings vanishings rightIn leftIn same.symm
          apart.symm unreserved leads gone followed)
    · rcases (predicts_iff_leads wellFormed rightIn).mp other with
        ⟨unreserved, leads⟩ | ⟨alsoGone, -⟩
      · exact free _ _ _ _ (collides_of_apart beginnings vanishings leftIn rightIn same
          apart unreserved leads gone followed)
      · exact vanishings left leftIn right rightIn same apart lookahead ⟨gone, alsoGone, followed⟩

end Grammar

namespace Table

variable {grammar : Grammar} {registry : Registry}

/-- The conflicts of a grammar are the cells for which FIRST and FOLLOW choose different productions. -/
theorem mem_conflicts_iff_collides (wellFormed : grammar.WellFormed) {conflict : Conflict} :
    conflict ∈ grammar.nonterminals.flatMap (Analysis.ofGrammar grammar).rowConflicts ↔
      grammar.Collides conflict.nonterminal conflict.lookahead conflict.discarded conflict.kept := by
  have behind : conflict.lookahead ∈ (Analysis.ofGrammar grammar).follow.get conflict.nonterminal ↔
      grammar.FollowedBy conflict.nonterminal conflict.lookahead :=
    (Grammar.mem_follow wellFormed).trans Grammar.follows_iff_followedBy
  rw [mem_conflicts wellFormed, behind, Analysis.epsilonProduction?_iff wellFormed]
  constructor
  · rintro ⟨-, followed, vanishes, chosen, apart⟩
    exact ⟨followed, vanishes, ((Analysis.firstProduction?_iff wellFormed).mp chosen).2, apart⟩
  · intro collides
    obtain ⟨member, named, leads⟩ := collides.leads.listed
    have proper := collides.followed.proper wellFormed
    obtain ⟨unreserved, begins⟩ := leads.resolve_left fun isEmpty => proper isEmpty.1
    refine ⟨?_, collides.followed, collides.vanishes,
      (Analysis.firstProduction?_iff wellFormed).mpr ⟨unreserved, collides.leads⟩, collides.apart⟩
    -- What a production begins with is in FIRST of its non-terminal.
    rw [← named]
    exact (Grammar.mem_first wellFormed proper).mpr
      (Grammar.begins_of_body member (Grammar.runBegins_iff.mpr begins))

/-- All categories are words of 64 bits with a sign. -/
def Wordsized (grammar : Grammar) (registry : Registry) : Prop :=
  ∀ entry ∈ registry.entries ++ grammar.terminals, entry.1 < 2 ^ 63

/-- A table can only be built for categories that leave room for the number of columns. -/
theorem fits_of_build (words : Wordsized grammar registry) {table : Table}
    (built : build (Analysis.ofGrammar grammar) registry = .ok table) : Fits grammar registry := by
  intro entry member
  refine Int.lt_of_not_ge fun large => ?_
  -- The greatest category is a word too, and the number of columns, which is three more, overflows.
  have lower := le_greatestCategory member
  have upper : greatestCategory grammar registry < 2 ^ 63 :=
    (foldl_max_bounds ((registry.entries ++ grammar.terminals).map Prod.fst) 0).2 (2 ^ 63)
      (by decide) (by
        intro category inside
        obtain ⟨other, listed, rfl⟩ := mem_map.mp inside
        exact words other listed)
  have negative : columnCount (greatestCategory grammar registry) < 0 := by
    generalize greatestCategory grammar registry = greatest at lower upper ⊢
    simp only [columnCount, Category.endOfInput, Category, Int.bmod] at lower upper large ⊢
    omega
  simp [build, Matrix.create, negative, Analysis.ofGrammar, bind, Except.bind] at built

/--
A grammar is LL(1) exactly if its table has no conflicts, and no two productions of a non-terminal begin with one terminal or vanish before one lookahead.

There is a table exactly if all categories have a column, and it has no conflicts exactly if FIRST and FOLLOW choose the same production wherever both choose one.
-/
theorem conflicts_decide_ll1 (assembled : grammar.Assembled) (words : Wordsized grammar registry) :
    ((∃ table, build (Analysis.ofGrammar grammar) registry = .ok table) ↔ Fits grammar registry) ∧
      ∀ table, build (Analysis.ofGrammar grammar) registry = .ok table →
        (table.conflicts = [] ↔ ∀ name lookahead vanishing leading,
          ¬ grammar.Collides name lookahead vanishing leading) ∧
        (grammar.IsLL1 ↔
          table.conflicts = [] ∧ grammar.BeginningsApart ∧ grammar.VanishingsApart) := by
  have wellFormed := assembled.wellFormed
  refine ⟨⟨?_, fun fits => ?_⟩, fun table built => ?_⟩
  · rintro ⟨table, built⟩
    exact fits_of_build words built
  · obtain ⟨table, built, -⟩ := build_ok wellFormed fits
    exact ⟨table, built⟩
  · obtain ⟨_, same, -, -, -, noted⟩ := build_ok wellFormed (fits_of_build words built)
    cases built.symm.trans same
    have empty : table.conflicts = [] ↔ ∀ name lookahead vanishing leading,
        ¬ grammar.Collides name lookahead vanishing leading := by
      rw [noted, eq_nil_iff_forall_not_mem]
      simp only [mem_conflicts_iff_collides wellFormed]
      exact ⟨fun free name lookahead vanishing leading => free ⟨name, lookahead, vanishing, leading⟩,
        fun free conflict => free _ _ _ _⟩
    exact ⟨empty, by rw [empty]; exact Grammar.isLL1_iff_apart wellFormed⟩

/-- Rules for an optional part that begins with what stands behind it. -/
def optionalStartRules : GrammarBuilder :=
  (((GrammarBuilder.mk "OptionalStart" [] []).add "S" [.nonterminal "A", .terminal "a" 1]).add
    "A" [.terminal "a" 1]).add "A" []

/-- Their grammar, in which no two productions begin or vanish alike. -/
def optionalStart : Grammar := ⟨"OptionalStart", "S", optionalStartRules.productions⟩

theorem optionalStart_assembled : optionalStart.Assembled :=
  ⟨optionalStartRules, (((GrammarBuilder.Assembled.new "OptionalStart").extended rfl rfl).extended
    rfl rfl).extended rfl rfl, rfl⟩

/-- The table of the optional part has a conflict, and so the grammar is not LL(1). -/
theorem conflicts_decide_optional : optionalStart.Assembled ∧ Wordsized optionalStart {} ∧
    ∃ table, build (Analysis.ofGrammar optionalStart) {} = .ok table ∧
      table.conflicts = [⟨"A", 1, ⟨2, "A", [Symbol.epsilon]⟩, ⟨1, "A", [.terminal "a" 1]⟩⟩] ∧
      optionalStart.Collides "A" 1 ⟨2, "A", [Symbol.epsilon]⟩ ⟨1, "A", [.terminal "a" 1]⟩ ∧
      ¬ optionalStart.IsLL1 := by
  have words : Wordsized optionalStart {} := by
    unfold Wordsized
    decide
  have fits : Fits optionalStart {} := by
    unfold Fits
    decide
  obtain ⟨exists_iff, decides⟩ := conflicts_decide_ll1 optionalStart_assembled words
  obtain ⟨table, built⟩ := exists_iff.mpr fits
  obtain ⟨_, same, -, -, -, noted⟩ := build_ok optionalStart_assembled.wellFormed fits
  cases built.symm.trans same
  have listed : table.conflicts =
      [⟨"A", 1, ⟨2, "A", [Symbol.epsilon]⟩, ⟨1, "A", [.terminal "a" 1]⟩⟩] :=
    noted.trans (by decide +kernel)
  refine ⟨optionalStart_assembled, words, table, built, listed, ?_, fun ll1 => ?_⟩
  · have member := mem_singleton_self
      (⟨"A", 1, ⟨2, "A", [Symbol.epsilon]⟩, ⟨1, "A", [.terminal "a" 1]⟩⟩ : Conflict)
    rw [← listed, noted] at member
    exact (mem_conflicts_iff_collides optionalStart_assembled.wellFormed).mp member
  · have none := ((decides table built).2.mp ll1).1
    rw [listed] at none
    cases none

/-- Rules for a word that may go on. -/
def sharedStartRules : GrammarBuilder :=
  ((GrammarBuilder.mk "SharedStart" [] []).add "S" [.terminal "a" 1]).add
    "S" [.terminal "a" 1, .terminal "b" 2]

/-- Their grammar, in which both productions begin with the same terminal. -/
def sharedStart : Grammar := ⟨"SharedStart", "S", sharedStartRules.productions⟩

theorem sharedStart_assembled : sharedStart.Assembled :=
  ⟨sharedStartRules, ((GrammarBuilder.Assembled.new "SharedStart").extended rfl rfl).extended rfl rfl,
    rfl⟩

/-- The table of such a grammar has no conflicts, though the grammar is not LL(1). -/
theorem no_conflicts_without_ll1 : sharedStart.Assembled ∧ ∃ table,
    build (Analysis.ofGrammar sharedStart) ⟨[(1, "a"), (2, "b")]⟩ = .ok table ∧
      table.conflicts = [] ∧ ¬ sharedStart.IsLL1 := by
  have wellFormed := sharedStart_assembled.wellFormed
  have fits : Fits sharedStart ⟨[(1, "a"), (2, "b")]⟩ := by
    unfold Fits
    decide
  obtain ⟨table, built, -, -, -, noted⟩ := build_ok wellFormed fits
  refine ⟨sharedStart_assembled, table, built, noted.trans (by decide +kernel), ?_⟩
  rw [← Analysis.isLL1_iff wellFormed]
  decide +kernel

end Table

end ThreeAddress

import ThreeAddress.Proofs.Table.Cells

/-!
What a parsing table predicts.

A lookahead predicts a production that can begin with it, or that can vanish before it.
In an LL(1) grammar no lookahead predicts two productions of one non-terminal, so the table holds all that is predicted.
-/

namespace ThreeAddress

namespace Grammar

/-- A lookahead predicts a production: its body derives a form that begins with it, or vanishes before it. -/
def Predicts (grammar : Grammar) (production : Production) (lookahead : Category) : Prop :=
  (∃ word rest, grammar.Derives production.body (.terminal word lookahead :: rest)) ∨
    grammar.Derives production.body [] ∧ grammar.FollowedBy production.lhs lookahead

/-- No lookahead predicts two productions of one non-terminal. -/
def IsLL1 (grammar : Grammar) : Prop :=
  ∀ left ∈ grammar.productions, ∀ right ∈ grammar.productions, left.lhs = right.lhs →
    left ≠ right → ∀ lookahead, ¬ (grammar.Predicts left lookahead ∧ grammar.Predicts right lookahead)

variable {grammar : Grammar} {lookahead : Category}

theorem predicts_iff {production : Production} :
    grammar.Predicts production lookahead ↔ grammar.RunBegins production.body lookahead ∨
        grammar.RunVanishes production.body ∧ grammar.Follows production.lhs lookahead := by
  rw [Predicts, runBegins_iff, runVanishes_iff, follows_iff_followedBy]

/-- In an LL(1) grammar a lookahead predicts at most one production of a non-terminal. -/
theorem IsLL1.unique (ll1 : grammar.IsLL1) {left right : Production}
    (first : left ∈ grammar.productions) (second : right ∈ grammar.productions)
    (same : left.lhs = right.lhs) (one : grammar.Predicts left lookahead)
    (two : grammar.Predicts right lookahead) : left = right := by
  by_cases equal : left = right
  · exact equal
  · exact absurd ⟨one, two⟩ (ll1 left first right second same equal lookahead)

end Grammar

namespace Analysis

/-- The lookaheads that predict a production, as far as the sets tell. -/
def predictSet (analysis : Analysis) (production : Production) : CategorySet :=
  let first := Grammar.firstOf analysis.first production.body
  if Category.epsilon ∈ first then first.proper ++ analysis.follow.get production.lhs
  else first.proper

/-- Whether no two productions of one non-terminal have a lookahead in common. -/
def isLL1 (analysis : Analysis) : Bool :=
  let sets := analysis.grammar.productions.map fun production =>
    (production, analysis.predictSet production)
  sets.all fun (left, one) => sets.all fun (right, two) =>
    left.lhs != right.lhs || left == right || one.all fun lookahead => !two.contains lookahead

variable {grammar : Grammar}

theorem mem_predictSet (wellFormed : grammar.WellFormed) {production : Production}
    (member : production ∈ grammar.productions) {lookahead : Category} :
    lookahead ∈ (ofGrammar grammar).predictSet production ↔
      grammar.Predicts production lookahead := by
  have unreserved := wellFormed.unreserved_body member
  have vanishes : Category.epsilon ∈ Grammar.firstOf (ofGrammar grammar).first production.body ↔
      grammar.RunVanishes production.body :=
    Grammar.epsilon_mem_firstOf_first wellFormed unreserved
  have follows : lookahead ∈ (ofGrammar grammar).follow.get production.lhs ↔
      grammar.Follows production.lhs lookahead := Grammar.mem_follow wellFormed
  have begins : lookahead ∈ (Grammar.firstOf (ofGrammar grammar).first production.body).proper ↔
      grammar.RunBegins production.body lookahead := by
    rw [CategorySet.mem_proper]
    constructor
    · rintro ⟨found, proper⟩
      exact (Grammar.mem_firstOf_first wellFormed unreserved proper).mp found
    · intro found
      have proper := Grammar.ne_epsilon_of_nonneg (found.nonneg wellFormed unreserved)
      exact ⟨(Grammar.mem_firstOf_first wellFormed unreserved proper).mpr found, proper⟩
  rw [Grammar.predicts_iff]
  simp only [predictSet]
  by_cases shown : Category.epsilon ∈ Grammar.firstOf (ofGrammar grammar).first production.body
  · rw [if_pos shown, List.mem_append, begins, follows]
    simp [vanishes.mp shown]
  · rw [if_neg shown, begins]
    have never : ¬ grammar.RunVanishes production.body := fun run => shown (vanishes.mpr run)
    simp [never]

theorem isLL1_iff (wellFormed : grammar.WellFormed) :
    (ofGrammar grammar).isLL1 = true ↔ grammar.IsLL1 := by
  simp only [isLL1, List.all_eq_true, List.mem_map, Bool.or_eq_true, bne_iff_ne, beq_iff_eq,
    Bool.not_eq_true', List.contains_eq_mem, decide_eq_false_iff_not]
  constructor
  · intro apart left first right second same different lookahead ⟨one, two⟩
    rcases apart _ ⟨left, first, rfl⟩ _ ⟨right, second, rfl⟩ with (other | equal) | disjoint
    · exact other same
    · exact different equal
    · exact disjoint lookahead ((mem_predictSet wellFormed first).mpr one)
        ((mem_predictSet wellFormed second).mpr two)
  · rintro ll1 _ ⟨left, first, rfl⟩ _ ⟨right, second, rfl⟩
    by_cases same : left.lhs = right.lhs
    · by_cases equal : left = right
      · exact .inl (.inr equal)
      · refine .inr fun lookahead one two => ll1 left first right second same equal lookahead ?_
        exact ⟨(mem_predictSet wellFormed first).mp one, (mem_predictSet wellFormed second).mp two⟩
    · exact .inl (.inl same)

end Analysis

namespace Table

/-- What parsing rests on: a table gives only predicted productions, and leaves no cell blank for which there is one. -/
structure Faithful (grammar : Grammar) (table : Table) : Prop where
  grammar_eq : table.grammar = grammar
  names_eq : table.names = grammar.nonterminals
  listed : ∀ name lookahead production, table.production? name lookahead = some production →
    production ∈ grammar.productions ∧ production.lhs = name
  predicted : ∀ name lookahead production, table.production? name lookahead = some production →
    grammar.Predicts production lookahead
  /-- What can begin with the lookahead is preferred to what vanishes before it. -/
  begun : ∀ name lookahead, grammar.Begins (.nonterminal name) lookahead →
    ∃ production, table.production? name lookahead = some production ∧
      grammar.RunBegins production.body lookahead
  vanished : ∀ name lookahead, grammar.Vanishes (.nonterminal name) →
    grammar.Follows name lookahead → ∃ production, table.production? name lookahead = some production

variable {grammar : Grammar} {registry : Registry}

theorem build_faithful (wellFormed : grammar.WellFormed) (fits : Fits grammar registry) :
    ∃ table, build (Analysis.ofGrammar grammar) registry = .ok table ∧
      Faithful grammar table ∧ table.registry = registry := by
  obtain ⟨table, built, filled⟩ := build_ok wellFormed fits
  have cells := filled.predicted
  have first : ∀ name lookahead production,
      (Analysis.ofGrammar grammar).firstProduction? name lookahead = some production →
      lookahead ≠ Category.epsilon → grammar.RunBegins production.body lookahead := by
    intro name lookahead production found proper
    obtain ⟨-, -, leads⟩ := ((Analysis.firstProduction?_iff wellFormed).mp found).2.listed
    exact Grammar.runBegins_iff.mpr (leads.resolve_left fun isEmpty => proper isEmpty.1).2
  refine ⟨table, built, ⟨filled.grammar_eq, filled.names_eq, ?_, ?_, ?_, ?_⟩, filled.registry_eq⟩
  · intro name lookahead production found
    rw [cells] at found
    exact Analysis.predicted?_member wellFormed found
  · intro name lookahead production found
    rw [cells, Analysis.predicted?] at found
    rw [Grammar.predicts_iff]
    split at found
    · rename_i member
      exact .inl (first name lookahead production found (CategorySet.mem_proper.mp member).2)
    · split at found
      · rename_i follows
        obtain ⟨member, rfl, gone⟩ := ((Analysis.epsilonProduction?_iff wellFormed).mp found).listed
        exact .inr ⟨Grammar.runVanishes_iff.mpr gone, (Grammar.mem_follow wellFormed).mp follows⟩
      · simp at found
  · intro name lookahead begins
    have proper := Grammar.ne_epsilon_of_nonneg (begins.nonneg wellFormed (by simp))
    have shown := (Grammar.mem_first wellFormed proper).mpr begins
    obtain ⟨production, found⟩ := Option.isSome_iff_exists.mp
      (Analysis.firstProduction?_isSome wellFormed proper shown)
    refine ⟨production, ?_, first name lookahead production found proper⟩
    rw [cells, Analysis.predicted?]
    exact (if_pos (CategorySet.mem_proper.mpr ⟨shown, proper⟩)).trans found
  · intro name lookahead vanishes follows
    have behind : lookahead ∈ (Analysis.ofGrammar grammar).follow.get name :=
      (Grammar.mem_follow wellFormed).mpr follows
    rw [cells, Analysis.predicted?, if_pos behind]
    split
    · rename_i member
      obtain ⟨shown, proper⟩ := CategorySet.mem_proper.mp member
      exact Option.isSome_iff_exists.mp (Analysis.firstProduction?_isSome wellFormed proper shown)
    · obtain ⟨production, member, same, inside⟩ := vanishes.production
      cases same
      obtain ⟨first, isFirst⟩ := Grammar.exists_firstWith member
        (fun listed => grammar.Derives listed.body []) (Grammar.runVanishes_iff.mp inside)
      exact ⟨first, (Analysis.epsilonProduction?_iff wellFormed).mpr isFirst⟩

theorem Faithful.production?_eq {table : Table} (faithful : Faithful grammar table)
    (ll1 : grammar.IsLL1) {production : Production} (member : production ∈ grammar.productions)
    {lookahead : Category} (predicts : grammar.Predicts production lookahead) :
    table.production? production.lhs lookahead = some production := by
  obtain ⟨held, found⟩ : ∃ held, table.production? production.lhs lookahead = some held := by
    rcases Grammar.predicts_iff.mp predicts with begins | ⟨vanishes, follows⟩
    · obtain ⟨held, found, -⟩ := faithful.begun production.lhs lookahead
        (Grammar.begins_of_body member begins)
      exact ⟨held, found⟩
    · exact faithful.vanished production.lhs lookahead (.expand member vanishes) follows
  obtain ⟨listed, same⟩ := faithful.listed _ _ _ found
  rw [found, ll1.unique member listed same.symm predicts (faithful.predicted _ _ _ found)]

end Table

end ThreeAddress

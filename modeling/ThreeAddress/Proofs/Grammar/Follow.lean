import ThreeAddress.Proofs.Grammar.First

/-!
The computed FOLLOW sets are exact.

The pass takes what the set of an owner has got by then, and the sweeps add what it got later.
-/

namespace ThreeAddress.Grammar

/-- What the symbols behind a non-terminal of a production add to its FOLLOW set. -/
def addedBehind (first follow : CategorySets) (lhs : Text) (rest : List Symbol) : CategorySet :=
  let next := firstOf first rest
  if next.hasEpsilon then CategorySet.union next.proper (follow.get lhs) else next.proper

variable {grammar : Grammar} {category : Category} {name : Text}
  {first follow : CategorySets} {lhs : Text} {rest : List Symbol}

theorem mem_addedBehind :
    category ∈ addedBehind first follow lhs rest ↔
      (category ∈ firstOf first rest ∧ category ≠ Category.epsilon) ∨
        (Category.epsilon ∈ firstOf first rest ∧ category ∈ follow.get lhs) := by
  simp only [addedBehind]
  split
  · rename_i vanishing
    simp only [CategorySet.hasEpsilon_iff] at vanishing
    simp [vanishing]
  · rename_i lasting
    simp only [CategorySet.hasEpsilon_iff] at lasting
    simp [lasting]

/-- The non-terminals of a run, each with what stands behind it. -/
def occurrences : List Symbol → List (Text × List Symbol)
  | [] => []
  | .terminal .. :: rest => occurrences rest
  | .nonterminal name :: rest => (name, rest) :: occurrences rest

variable {symbols : List Symbol}

theorem mem_occurrences : (name, rest) ∈ occurrences symbols ↔
    ∃ before, symbols = before ++ .nonterminal name :: rest := by
  induction symbols with
  | nil => simp [occurrences]
  | cons symbol behind ih =>
    cases symbol with
    | terminal word category => simp [occurrences, ih, List.cons_eq_append_iff]
    | nonterminal other => simp [occurrences, ih, List.cons_eq_append_iff, exists_or]

/-- What one occurrence adds. -/
def addBehind (first : CategorySets) (lhs : Text) (sets : CategorySets)
    (occurrence : Text × List Symbol) : CategorySets :=
  sets.add occurrence.1 (addedBehind first sets lhs occurrence.2)

/-- Going over a production adds what each of its occurrences does. -/
theorem followOf_eq (first : CategorySets) (lhs : Text) (symbols : List Symbol)
    (follow : CategorySets) :
    followOf first lhs follow symbols = (occurrences symbols).foldl (addBehind first lhs) follow := by
  induction symbols generalizing follow with
  | nil => rfl
  | cons symbol rest ih =>
    cases symbol with
    | terminal name category => exact ih follow
    | nonterminal name => exact ih _

theorem addBehind_grows (first : CategorySets) (lhs : Text) (sets : CategorySets)
    (occurrence : Text × List Symbol) : addBehind first lhs sets occurrence = sets ∨
      sets.weight < (addBehind first lhs sets occurrence).weight :=
  CategorySets.add_grows ..

/-- Going over a production either changes nothing or makes the sets heavier. -/
theorem followOf_grows (first : CategorySets) (lhs : Text) (symbols : List Symbol)
    (follow : CategorySets) :
    followOf first lhs follow symbols = follow ∨
      follow.weight < (followOf first lhs follow symbols).weight := by
  rw [followOf_eq]
  exact foldl_grows CategorySets.weight (addBehind_grows first lhs) _ _

/-- A production that is written as the empty text adds nothing, as its body does. -/
theorem followOf_rhs (first follow : CategorySets) (production : Production) :
    followOf first production.lhs follow production.rhs =
      followOf first production.lhs follow production.body := by
  rcases production.body_cases with same | ⟨none, name, category, single, -⟩
  · rw [same]
  · rw [none, single]
    rfl

theorem scanFollow_rhs (first : CategorySets) (visit : Visit) (name : Text)
    (production : Production) (pass : Pass) :
    scanFollow first visit name production.lhs production.rhs pass =
      scanFollow first visit name production.lhs production.body pass := by
  rcases production.body_cases with same | ⟨none, word, category, single, -⟩
  · rw [same]
  · rw [none, single]
    rfl

/-- What passes and sweeps keep: the names that have sets, the room for members, the end of input behind the start symbol, and that members do follow. -/
structure FollowInvariant (grammar : Grammar) (sets : CategorySets) : Prop where
  keyed : sets.keys = grammar.nonterminals
  within : sets.Within grammar.memberCategories
  ended : Category.endOfInput ∈ sets.get grammar.start
  sound : ∀ name category, category ∈ sets.get name → grammar.Follows name category

/-- What the pass keeps of the sets. It leaves the index alone. -/
abbrev FollowKept (grammar : Grammar) (sets : CategorySets) (_ : ProductionIndex) : Prop :=
  grammar.FollowInvariant sets

theorem Follows.member (follows : grammar.Follows name category) :
    category ∈ grammar.memberCategories := by
  induction follows with
  | start => simp [memberCategories]
  | @beside production _ _ _ _ member split begins =>
    obtain ⟨_, symbol, _, rfl, -, begins⟩ := begins
    refine begins.member fun name found same => ?_
    have occurs : .terminal name found ∈ production.body := by simp [split, same]
    exact mem_memberCategories member occurs
  | last _ _ _ _ ih => exact ih

variable {sets : CategorySets}

/-- Whatever follows a non-terminal may be added to its set. -/
theorem FollowInvariant.add (kept : grammar.FollowInvariant sets)
    (known : name ∈ grammar.nonterminals) {categories : CategorySet}
    (follows : ∀ category ∈ categories, grammar.Follows name category) :
    grammar.FollowInvariant (sets.add name categories) := by
  rw [← kept.keyed] at known
  refine ⟨by rw [CategorySets.keys_add, kept.keyed], CategorySets.add_within kept.within
    fun category found => (follows category found).member,
    (CategorySets.mem_get_add known).mpr (.inl kept.ended), fun other category found => ?_⟩
  rcases (CategorySets.mem_get_add known).mp found with old | ⟨rfl, new⟩
  · exact kept.sound other category old
  · exact follows category new

variable {production : Production} {before : List Symbol}

section

variable (wellFormed : grammar.WellFormed)
include wellFormed

section

variable (member : production ∈ grammar.productions)
include member

/-- What stands behind a non-terminal in a body follows it, and so does what follows the owner where that vanishes. -/
theorem follows_of_split (shape : production.body = before ++ .nonterminal name :: rest) :
    (∀ category ∈ firstOf grammar.first rest, category ≠ Category.epsilon →
      grammar.Follows name category) ∧
    (Category.epsilon ∈ firstOf grammar.first rest → ∀ category,
      grammar.Follows production.lhs category → grammar.Follows name category) := by
  have unreserved := wellFormed.unreserved_behind member shape
  refine ⟨fun category shown proper => ?_, fun gone category outer => ?_⟩
  · exact .beside member shape ((mem_firstOf_first wellFormed unreserved proper).mp shown)
  · exact .last member shape ((epsilon_mem_firstOf_first wellFormed unreserved).mp gone) outer

theorem WellFormed.listed
    (shape : production.body = before ++ .nonterminal name :: rest) : name ∈ grammar.nonterminals :=
  wellFormed.mem_nonterminals.mpr
    (wellFormed.defined production member name (by rw [shape]; simp))

theorem FollowInvariant.followOf (kept : grammar.FollowInvariant sets) :
    grammar.FollowInvariant (followOf grammar.first production.lhs sets production.body) := by
  rw [followOf_eq]
  refine foldl_induct grammar.FollowInvariant kept fun sets occurrence found kept => ?_
  obtain ⟨before, shape⟩ := mem_occurrences.mp found
  obtain ⟨beside, last⟩ := follows_of_split wellFormed member shape
  refine kept.add (wellFormed.listed member shape) fun category found => ?_
  rcases mem_addedBehind.mp found with ⟨shown, proper⟩ | ⟨gone, outer⟩
  · exact beside category shown proper
  · exact last gone category (kept.sound _ category outer)

end

theorem FollowInvariant.sweep (invariant : grammar.FollowInvariant sets) :
    grammar.FollowInvariant (grammar.followSweep grammar.first sets) := by
  refine foldl_induct grammar.FollowInvariant invariant ?_
  intro sets production member kept
  rw [followOf_rhs]
  exact kept.followOf wellFormed member

end

theorem FollowInvariant.start (grammar : Grammar) : grammar.FollowInvariant
    (grammar.blank.add grammar.start [Category.endOfInput]).sets := by
  have known : grammar.start ∈ (CategorySets.start grammar.nonterminals).keys := by
    simp [nonterminals]
  refine ⟨by simp [Pass.add, blank], CategorySets.add_within (CategorySets.start_within _ _)
    (by simp [memberCategories]), (CategorySets.mem_get_add known).mpr (by simp), ?_⟩
  intro name category found
  rcases (CategorySets.mem_get_add known).mp found with old | ⟨rfl, new⟩
  · simp at old
  · simp only [List.mem_singleton] at new
    exact new ▸ .start

section

variable (wellFormed : grammar.WellFormed)
include wellFormed

variable {production : Production}

/-- Going over a body keeps what the pass keeps, whatever sets are in progress. -/
theorem scanFollow_yields {room : Nat} {visit : Visit}
    (visits : Pass.Visits grammar.FollowKept grammar.nonterminals room visit)
    (member : production ∈ grammar.productions) :
    ∀ {symbols before : List Symbol} {pass : Pass}, production.body = before ++ symbols →
      pass.Ready grammar.FollowKept grammar.nonterminals room →
      Pass.Yields (Pass.Ready grammar.FollowKept grammar.nonterminals room)
        (scanFollow grammar.first visit name production.lhs symbols pass) := by
  intro symbols
  induction symbols with
  | nil => exact fun _ ready => ⟨_, rfl, ready⟩
  | cons symbol rest ih =>
    intro before pass shape ready
    have further : production.body = (before ++ [symbol]) ++ rest := by simp [shape]
    cases symbol with
    | terminal word category => exact ih further ready
    | nonterminal other =>
      rw [scanFollow]
      split
      · next same =>
        subst same
        have known := wellFormed.listed member shape
        obtain ⟨beside, last⟩ := follows_of_split wellFormed member shape
        have shown : findFirst grammar.first rest = .ok (firstOf grammar.first rest) :=
          findFirst_eq fun behind found => (first_invariant wellFormed).keyed ▸
            wellFormed.mem_nonterminals.mpr (wellFormed.defined production member behind
              (by rw [shape]; simp [found]))
        have next : (pass.add other (firstOf grammar.first rest).proper).Ready grammar.FollowKept
            grammar.nonterminals room := by
          refine ⟨ready.kept.add known fun category found => ?_, ready.unvisited⟩
          obtain ⟨found, proper⟩ := CategorySet.mem_proper.mp found
          exact beside category found proper
        simp only [shown, Except.mapError, bind, Except.bind]
        split
        · next vanishing =>
          have gone := CategorySet.hasEpsilon_iff.mp (Bool.and_eq_true_iff.mp vanishing).1
          have owner := wellFormed.mem_nonterminals.mpr (isNonterminal_lhs member)
          obtain ⟨after, done, holds⟩ := Pass.setOf_eq visits owner
            (fun _ _ kept => kept.keyed ▸ owner) next
          rw [done]
          refine ih further ⟨holds.kept.add known fun category found => ?_, holds.unvisited⟩
          exact last gone category
            (holds.kept.sound _ category (CategorySet.mem_proper.mp found).1)
        · exact ih further next
      · exact ih further ready

/-- The pass comes to an end without a fault, and all that it leaves behind follows. -/
theorem followPass_yields :
    Pass.Yields (fun pass => grammar.FollowInvariant pass.sets)
      (grammar.followPass grammar.first) := by
  let opened := grammar.blank.add grammar.start [Category.endOfInput]
  have start : grammar.FollowKept opened.sets opened.index := FollowInvariant.start grammar
  have known : ∀ sets index, grammar.FollowKept sets index → ∀ name ∈ grammar.nonterminals,
      name ∈ sets.keys := fun _ _ kept _ listed => kept.keyed ▸ listed
  refine Pass.visitAll_yields known (fun room visit visits name _ pass ready => ?_) start
  refine Pass.foldlM_yields (fun production listed pass ready => ?_) ready
  obtain ⟨_, -, listed⟩ := List.mem_flatMap.mp listed
  rw [scanFollow_rhs]
  exact scanFollow_yields wellFormed visits (List.mem_filter.mp listed).1 (List.nil_append _).symm
    ready

theorem followBegun_invariant : grammar.FollowInvariant
    ((grammar.followPass grammar.first).toOption.getD grammar.blank).sets := by
  obtain ⟨pass, done, kept⟩ := followPass_yields wellFormed
  rw [done]
  exact kept

theorem follow_invariant :
    grammar.FollowInvariant (grammar.follow grammar.first) :=
  stabilize_induct grammar.FollowInvariant (fun _ kept => kept.sweep wellFormed) _ _
    (followBegun_invariant wellFormed)

/-- A sweep over the computed FOLLOW sets adds nothing. -/
theorem follow_fixed :
    grammar.followSweep grammar.first (grammar.follow grammar.first) =
      grammar.follow grammar.first := by
  refine stabilize_fixed grammar.FollowInvariant CategorySets.weight (grammar.sweepBudget - 1)
    (fun _ kept => kept.sweep wellFormed)
    (fun _ kept => weight_lt_budget kept.keyed kept.within) ?_ _ _
    (followBegun_invariant wellFormed) ?_
  · intro sets
    exact foldl_grows CategorySets.weight (fun sets _ => followOf_grows _ _ _ sets) _ _
  · have positive : 0 < grammar.sweepBudget := by simp [sweepBudget]
    omega

theorem follow_closed (member : production ∈ grammar.productions) {before after : List Symbol}
    (split : production.body = before ++ .nonterminal name :: after) (added : category ∈
      addedBehind grammar.first (grammar.follow grammar.first) production.lhs after) :
    category ∈ (grammar.follow grammar.first).get name := by
  have same := foldl_fixed CategorySets.weight
    (fun sets (production : Production) => followOf_grows grammar.first production.lhs
      production.rhs sets) (follow_fixed wellFormed) production member
  rw [followOf_rhs, followOf_eq] at same
  have unchanged := foldl_fixed CategorySets.weight (addBehind_grows grammar.first production.lhs)
    same _ (mem_occurrences.mpr ⟨before, split⟩)
  have known : name ∈ (grammar.follow grammar.first).keys :=
    (follow_invariant wellFormed).keyed ▸ wellFormed.listed member split
  rw [← unchanged, addBehind, CategorySets.mem_get_add known]
  exact Or.inr ⟨rfl, added⟩

/-- The FOLLOW set of a non-terminal holds exactly what follows it. -/
theorem mem_follow :
    category ∈ (grammar.follow grammar.first).get name ↔ grammar.Follows name category := by
  constructor
  · exact (follow_invariant wellFormed).sound name category
  · intro follows
    induction follows with
    | start => exact (follow_invariant wellFormed).ended
    | beside member split begins =>
      have unreserved := wellFormed.unreserved_behind member split
      have proper := ne_epsilon_of_nonneg (begins.nonneg wellFormed unreserved)
      exact follow_closed wellFormed member split (mem_addedBehind.mpr
        (Or.inl ⟨(mem_firstOf_first wellFormed unreserved proper).mpr begins, proper⟩))
    | last member split passed _ ih =>
      have unreserved := wellFormed.unreserved_behind member split
      exact follow_closed wellFormed member split (mem_addedBehind.mpr
        (Or.inr ⟨(epsilon_mem_firstOf_first wellFormed unreserved).mpr passed, ih⟩))

theorem Follows.unreserved
    (follows : grammar.Follows name category) : 0 ≤ category ∨ category = Category.endOfInput := by
  induction follows with
  | start => exact Or.inr rfl
  | beside member split begins =>
    exact Or.inl (begins.nonneg wellFormed (wellFormed.unreserved_behind member split))
  | last _ _ _ _ ih => exact ih

end

end ThreeAddress.Grammar

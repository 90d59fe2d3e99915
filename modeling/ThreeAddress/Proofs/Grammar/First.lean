import ThreeAddress.Proofs.Grammar.Assembly
import ThreeAddress.Proofs.Grammar.Pass

/-!
The computed FIRST sets are exact.

The pass and the sweeps only add what derivations show, and a sweep that adds nothing leaves nothing to be added.
So it does not matter what the pass leaves out where rules refer to each other.
The budget of sweeps is never used up, since every sweep before the last one adds a member to some set.
-/

namespace ThreeAddress

open List

theorem NamedCategories.mem_keys_put {category other : Category} {name : Text}
    {named : NamedCategories} :
    other ∈ (named.put category name).map Prod.fst ↔
      other = category ∨ other ∈ named.map Prod.fst := by
  induction named with
  | nil => simp [put]
  | cons entry rest ih =>
    obtain ⟨key, text⟩ := entry
    simp only [put]
    split
    · simp
    · split
      · rename_i same
        subst same
        simp
      · simp only [map_cons, mem_cons, ih]
        tauto

namespace Grammar

/-- A run of symbols without reserved categories, as every body is one. -/
def Unreserved (symbols : List Symbol) : Prop :=
  ∀ name category, .terminal name category ∈ symbols → 0 ≤ category

/-- The categories that sets of a grammar can have as members. -/
def memberCategories (grammar : Grammar) : List Category :=
  Category.epsilon :: Category.endOfInput :: grammar.terminals.map Prod.fst

/-- What a symbol can begin with or vanish as, going by the given sets. -/
def Shown (sets : CategorySets) : Symbol → Category → Prop
  | .terminal _ category, shown => category = shown
  | .nonterminal name, shown => shown ∈ sets.get name

variable {grammar : Grammar} {category : Category} {symbol : Symbol} {symbols : List Symbol}
  {name : Text} {production : Production} {sets : CategorySets}

theorem foldl_names {step : NamedCategories → Symbol → NamedCategories}
    (names : ∀ named, category ∈ (step named symbol).map Prod.fst)
    (stays : ∀ named other, category ∈ named.map Prod.fst →
      category ∈ (step named other).map Prod.fst) :
    ∀ {named : NamedCategories}, symbol ∈ symbols ∨ category ∈ named.map Prod.fst →
      category ∈ (symbols.foldl step named).map Prod.fst := by
  induction symbols with
  | nil =>
    rintro named (absent | known)
    · simp at absent
    · exact known
  | cons first rest ih =>
    intro named present
    rw [foldl_cons]
    apply ih
    rcases present with inside | known
    · rcases mem_cons.mp inside with rfl | behind
      · exact .inr (names named)
      · exact .inl behind
    · exact .inr (stays named first known)

theorem mem_terminals (member : production ∈ grammar.productions)
    (found : .terminal name category ∈ production.rhs) (proper : category ≠ Category.epsilon) :
    category ∈ grammar.terminals.map Prod.fst := by
  have occurs : Symbol.terminal name category ∈ grammar.productions.flatMap Production.rhs :=
    mem_flatMap.mpr ⟨production, member, found⟩
  refine foldl_names ?_ ?_ (.inl occurs)
  · intro named
    have kept : (Symbol.terminal name category).isEpsilon = false := by
      simpa [Symbol.isEpsilon, Symbol.hasCategory, Symbol.category?] using proper
    simp [kept, NamedCategories.mem_keys_put]
  · intro named symbol known
    cases symbol with
    | nonterminal other => exact known
    | terminal other found =>
      simp only
      split
      · exact known
      · exact NamedCategories.mem_keys_put.mpr (Or.inr known)

theorem WellFormed.unreserved_body (wellFormed : grammar.WellFormed)
    (member : production ∈ grammar.productions) : Unreserved production.body :=
  wellFormed.unreserved production member

theorem WellFormed.unreserved_behind (wellFormed : grammar.WellFormed)
    (member : production ∈ grammar.productions) {before after : List Symbol}
    (split : production.body = before ++ symbol :: after) : Unreserved after :=
  fun name category found => wellFormed.unreserved production member name category (by simp [split, found])

theorem ne_epsilon_of_nonneg (unreserved : 0 ≤ category) : category ≠ Category.epsilon := by
  rintro rfl
  exact absurd unreserved (by decide)

theorem Unreserved.tail {rest : List Symbol} (unreserved : Unreserved (symbol :: rest)) :
    Unreserved rest :=
  fun name category member => unreserved name category (by simp [member])

theorem firstOf_rhs (sets : CategorySets) (production : Production) :
    firstOf sets production.rhs = firstOf sets production.body := by
  rcases production.body_cases with same | ⟨none, name, category, single, isEmpty⟩
  · rw [same]
  · simp [none, single, firstOf, isEmpty]

/-- A run shows what its first symbol does, and if that vanishes what the others show. -/
theorem mem_firstOf_cons (unreserved : Unreserved (symbol :: symbols)) :
    category ∈ firstOf sets (symbol :: symbols) ↔
      category ≠ Category.epsilon ∧ Shown sets symbol category ∨
        Shown sets symbol Category.epsilon ∧ category ∈ firstOf sets symbols := by
  cases symbol with
  | terminal name found =>
    have proper := ne_epsilon_of_nonneg (unreserved name found (by simp))
    have kept : (Symbol.terminal name found).isEpsilon = false := by
      simpa [Symbol.isEpsilon, Symbol.hasCategory, Symbol.category?] using proper
    simp only [firstOf, kept, Shown, Bool.false_eq_true, if_false, mem_singleton]
    grind
  | nonterminal name =>
    simp only [firstOf, Shown]
    split
    · next vanishing => simp [CategorySet.hasEpsilon_iff.mp vanishing, and_comm]
    · next lasting => grind [CategorySet.hasEpsilon_iff]

/-- A run vanishes, going by the sets, where each of its symbols does. -/
theorem epsilon_mem_firstOf (unreserved : Unreserved symbols) :
    Category.epsilon ∈ firstOf sets symbols ↔
      ∀ symbol ∈ symbols, Shown sets symbol Category.epsilon := by
  induction symbols with
  | nil => simp [firstOf]
  | cons symbol rest ih => simp [mem_firstOf_cons unreserved, ih unreserved.tail]

/-- A run begins with a category, going by the sets, where symbols that vanish stand before one that shows it. -/
theorem mem_firstOf_split {before after : List Symbol} (proper : category ≠ Category.epsilon)
    (shown : Shown sets symbol category) : Unreserved (before ++ symbol :: after) →
    (∀ earlier ∈ before, Shown sets earlier Category.epsilon) →
    category ∈ firstOf sets (before ++ symbol :: after) := by
  induction before with
  | nil => exact fun unreserved _ => (mem_firstOf_cons unreserved).mpr (.inl ⟨proper, shown⟩)
  | cons head rest ih =>
    intro unreserved passed
    obtain ⟨vanishes, others⟩ := forall_mem_cons.mp passed
    exact (mem_firstOf_cons unreserved).mpr (.inr ⟨vanishes, ih unreserved.tail others⟩)

/-! Sweeps. -/

/-- What a run of symbols begins with, or that it vanishes. -/
def Shows (grammar : Grammar) (symbols : List Symbol) (category : Category) : Prop :=
  category = Category.epsilon ∧ grammar.RunVanishes symbols ∨
    category ≠ Category.epsilon ∧ grammar.RunBegins symbols category

theorem shows_cons : grammar.Shows (symbol :: symbols) category ↔
    category ≠ Category.epsilon ∧ grammar.Begins symbol category ∨
      grammar.Vanishes symbol ∧ grammar.Shows symbols category := by
  simp only [Shows, RunVanishes, forall_mem_cons, runBegins_cons]
  tauto

/-- A non-terminal shows what the body of one of its productions shows. -/
theorem Shows.owner (shows : grammar.Shows production.body category)
    (member : production ∈ grammar.productions) :
    grammar.Shows [.nonterminal production.lhs] category := by
  rw [shows_cons]
  rcases shows with ⟨rfl, vanishes⟩ | ⟨proper, begins⟩
  · exact .inr ⟨.expand member vanishes, .inl ⟨rfl, by simp [RunVanishes]⟩⟩
  · exact .inl ⟨proper, begins_of_body member begins⟩

/-- Everything in the sets is shown by derivations. -/
def FirstSound (grammar : Grammar) (sets : CategorySets) : Prop :=
  ∀ name, ∀ category ∈ sets.get name, grammar.Shows [.nonterminal name] category

/-- In sound sets a symbol of a body shows only what derivations show. -/
theorem FirstSound.shown (sound : grammar.FirstSound sets)
    (unreserved : Unreserved (symbol :: symbols)) (shown : Shown sets symbol category) :
    grammar.Shows [symbol] category := by
  cases symbol with
  | terminal name found =>
    cases shown
    have proper := ne_epsilon_of_nonneg (unreserved name category (by simp))
    exact shows_cons.mpr (.inl ⟨proper, .terminal name category⟩)
  | nonterminal name => exact sound name category shown

theorem FirstSound.shows (sound : grammar.FirstSound sets) (unreserved : Unreserved symbols)
    (found : category ∈ firstOf sets symbols) : grammar.Shows symbols category := by
  induction symbols with
  | nil => exact .inl ⟨mem_singleton.mp found, by simp [RunVanishes]⟩
  | cons symbol rest ih =>
    rw [shows_cons]
    rcases (mem_firstOf_cons unreserved).mp found with ⟨proper, shown⟩ | ⟨vanishes, behind⟩
    · have shows := sound.shown unreserved shown
      simp only [Shows, proper, false_and, false_or, ne_eq, not_false_eq_true, true_and,
        runBegins_singleton] at shows
      exact .inl ⟨proper, shows⟩
    · have shows := sound.shown unreserved vanishes
      simp only [Shows, true_and, ne_eq, not_true_eq_false, false_and, or_false] at shows
      exact .inr ⟨shows symbol mem_cons_self, ih unreserved.tail behind⟩

theorem mem_memberCategories (member : production ∈ grammar.productions)
    (found : .terminal name category ∈ production.body) : category ∈ grammar.memberCategories := by
  by_cases isEmpty : category = Category.epsilon
  · simp [memberCategories, isEmpty]
  · exact mem_cons_of_mem _ (mem_cons_of_mem _
      (mem_terminals member (Production.mem_rhs_of_mem_body found) isEmpty))

/-- What a symbol begins with is a terminal of some production, if the symbol itself is. -/
theorem Begins.member (begins : grammar.Begins symbol category)
    (listed : ∀ name found, symbol = .terminal name found → found ∈ grammar.memberCategories) :
    category ∈ grammar.memberCategories := by
  induction begins with
  | terminal name category => exact listed name category rfl
  | @expand production before after symbol category member split _ _ ih =>
    refine ih fun name found same => ?_
    have occurs : .terminal name found ∈ production.body := by simp [split, same]
    exact mem_memberCategories member occurs

/-- What a part of a body shows is a category that sets can have. -/
theorem Shows.member (shows : grammar.Shows symbols category)
    (member : production ∈ grammar.productions)
    (inside : ∀ symbol ∈ symbols, symbol ∈ production.body) :
    category ∈ grammar.memberCategories := by
  rcases shows with ⟨isEmpty, -⟩ | ⟨-, before, symbol, after, rfl, -, begins⟩
  · simp [memberCategories, isEmpty]
  · exact begins.member fun name found same =>
      mem_memberCategories member (same ▸ inside symbol (by simp))

/-- What passes and sweeps keep: the names that have sets, the room for members, and soundness. -/
structure FirstInvariant (grammar : Grammar) (sets : CategorySets) : Prop where
  keyed : sets.keys = grammar.nonterminals
  within : sets.Within grammar.memberCategories
  sound : grammar.FirstSound sets

theorem FirstInvariant.blank (grammar : Grammar) : grammar.FirstInvariant grammar.blank.sets :=
  ⟨CategorySets.keys_start _, CategorySets.start_within _ _, by simp [FirstSound, Grammar.blank]⟩

variable {categories : CategorySet}

/-- A production may add to its owner's set whatever its body shows. -/
theorem FirstInvariant.add (wellFormed : grammar.WellFormed) (kept : grammar.FirstInvariant sets)
    (member : production ∈ grammar.productions)
    (shows : ∀ category ∈ categories, grammar.Shows production.body category) :
    grammar.FirstInvariant (sets.add production.lhs categories) := by
  have known : production.lhs ∈ sets.keys := by
    rw [kept.keyed, wellFormed.mem_nonterminals]
    exact isNonterminal_lhs member
  refine ⟨by rw [CategorySets.keys_add, kept.keyed], CategorySets.add_within kept.within
    fun category found => (shows category found).member member fun _ inside => inside,
    fun name category found => ?_⟩
  rcases (CategorySets.mem_get_add known).mp found with old | ⟨rfl, new⟩
  · exact kept.sound name category old
  · exact (shows category new).owner member

theorem FirstInvariant.sweep (wellFormed : grammar.WellFormed)
    (invariant : grammar.FirstInvariant sets) :
    grammar.FirstInvariant (grammar.firstSweep sets) := by
  refine foldl_induct grammar.FirstInvariant invariant ?_
  intro sets production member kept
  refine kept.add wellFormed member fun category found => ?_
  rw [firstOf_rhs] at found
  exact kept.sound.shows (wellFormed.unreserved_body member) found

/-! The pass. -/

/-- What the pass has entered for categories is right, and it has not told which productions vanish. -/
structure IndexInvariant (grammar : Grammar) (index : ProductionIndex) : Prop where
  beginning : ∀ name category production, ((name, category), production) ∈ index.beginning →
    production ∈ grammar.productionsOf name ∧ category ≠ Category.epsilon ∧
      grammar.Shows production.body category
  vanishing : index.vanishing = []

theorem IndexInvariant.enterAll {index : ProductionIndex} (kept : grammar.IndexInvariant index)
    (member : production ∈ grammar.productions)
    (proper : ∀ category ∈ categories, category ≠ Category.epsilon)
    (shows : ∀ category ∈ categories, grammar.Shows production.body category) :
    grammar.IndexInvariant (index.enterAll production categories) := by
  refine foldl_induct grammar.IndexInvariant kept fun index category found kept => ?_
  rw [ProductionIndex.enter, if_neg (proper category found)]
  refine ⟨fun name other entered listed => ?_, kept.vanishing⟩
  rcases mem_cons.mp listed with new | old
  · cases new
    exact ⟨mem_filter.mpr ⟨member, beq_self_eq_true _⟩, proper _ found, shows _ found⟩
  · exact kept.beginning name other entered old

/-- What the pass keeps of sets and index. -/
abbrev PassInvariant (grammar : Grammar) (sets : CategorySets) (index : ProductionIndex) : Prop :=
  grammar.FirstInvariant sets ∧ grammar.IndexInvariant index

theorem scanFirst_rhs (visit : Visit) (production : Production) (pass : Pass) :
    scanFirst visit production production.rhs pass =
      scanFirst visit production production.body pass := by
  rcases production.body_cases with same | ⟨none, name, category, single, isEmpty⟩
  · rw [same]
  · simp [none, single, scanFirst, isEmpty]

section

variable (wellFormed : grammar.WellFormed)
include wellFormed

variable {room : Nat}

/-- What a production begins with is added and entered. -/
theorem ready_begins {pass : Pass}
    (ready : pass.Ready grammar.PassInvariant grammar.nonterminals room)
    (member : production ∈ grammar.productions) {categories : CategorySet}
    (proper : ∀ category ∈ categories, category ≠ Category.epsilon)
    (shows : ∀ category ∈ categories, grammar.RunBegins production.body category) :
    (pass.begins production categories).Ready grammar.PassInvariant grammar.nonterminals room :=
  have shown := fun category found => .inr ⟨proper category found, shows category found⟩
  ⟨⟨ready.kept.1.add wellFormed member shown, ready.kept.2.enterAll member proper shown⟩,
    ready.unvisited⟩

/-- Going over a body keeps what the pass keeps, since what is in front of the rest vanishes. -/
theorem scanFirst_yields {visit : Visit}
    (visits : Pass.Visits grammar.PassInvariant grammar.nonterminals room visit)
    (member : production ∈ grammar.productions) :
    ∀ {symbols before : List Symbol} {pass : Pass}, production.body = before ++ symbols →
      grammar.RunVanishes before →
      pass.Ready grammar.PassInvariant grammar.nonterminals room →
      Pass.Yields (Pass.Ready grammar.PassInvariant grammar.nonterminals room)
        (scanFirst visit production symbols pass) := by
  intro symbols
  induction symbols with
  | nil =>
    intro before pass shape passed ready
    rw [append_nil] at shape
    refine ⟨_, rfl, ⟨ready.kept.1.add wellFormed member ?_, ready.kept.2⟩, ready.unvisited⟩
    exact fun category found => .inl ⟨mem_singleton.mp found, shape ▸ passed⟩
  | cons symbol rest ih =>
    intro before pass shape passed ready
    cases symbol with
    | terminal name category =>
      have proper := ne_epsilon_of_nonneg
        (wellFormed.unreserved_body member name category (by simp [shape]))
      have kept : (Symbol.terminal name category).isEpsilon = false := by
        simpa [Symbol.isEpsilon, Symbol.hasCategory, Symbol.category?] using proper
      simp only [scanFirst, kept, Bool.false_eq_true, if_false]
      refine ⟨_, rfl, ready_begins wellFormed ready member (by simpa using proper) ?_⟩
      intro found isFound
      rw [mem_singleton.mp isFound]
      exact ⟨before, _, rest, shape, passed, .terminal name category⟩
    | nonterminal name =>
      rw [scanFirst]
      split
      · exact ⟨pass, rfl, ready⟩
      · have listed : name ∈ grammar.nonterminals := wellFormed.mem_nonterminals.mpr
          (wellFormed.defined production member name (by simp [shape]))
        obtain ⟨after, done, holds⟩ := Pass.setOf_eq visits listed
          (fun _ _ kept => kept.1.keyed ▸ listed) ready
        -- What the set holds is right, whether or not it lacks something.
        have sound := holds.kept.1.sound name
        have next : (after.begins production (after.sets.get name).proper).Ready
            grammar.PassInvariant grammar.nonterminals room := by
          refine ready_begins wellFormed holds member ?_ ?_
          · exact fun category found => (CategorySet.mem_proper.mp found).2
          · intro category found
            obtain ⟨shown, proper⟩ := CategorySet.mem_proper.mp found
            have begins : grammar.Begins (.nonterminal name) category := by
              simpa [Shows, proper, runBegins_singleton] using sound category shown
            exact ⟨before, _, rest, shape, passed, begins⟩
        have further : production.body = (before ++ [.nonterminal name]) ++ rest := by simp [shape]
        simp only [done, bind, Except.bind]
        split
        · next vanishing =>
          refine ih further ?_ next
          intro symbol found
          rcases mem_append.mp found with early | here
          · exact passed symbol early
          · rw [mem_singleton.mp here]
            simpa [Shows, RunVanishes] using sound _ (CategorySet.hasEpsilon_iff.mp vanishing)
        · exact ⟨_, rfl, next⟩

/-- The pass comes to an end without a fault, and what it leaves behind is right. -/
theorem firstPass_yields :
    Pass.Yields (fun pass => grammar.PassInvariant pass.sets pass.index) grammar.firstPass := by
  refine Pass.visitAll_yields (fun _ _ kept name listed => kept.1.keyed ▸ listed)
    (fun room visit visits name _ pass ready => ?_)
    ⟨.blank grammar, ⟨by simp [Grammar.blank], rfl⟩⟩
  refine Pass.foldlM_yields (fun production listed pass ready => ?_) ready
  rw [scanFirst_rhs]
  exact scanFirst_yields wellFormed visits (mem_filter.mp listed).1 (nil_append _).symm
    (by simp [RunVanishes]) ready

theorem begun_invariant : grammar.PassInvariant grammar.begun.sets grammar.begun.index := by
  obtain ⟨pass, done, kept⟩ := firstPass_yields wellFormed
  rw [begun, done]
  exact kept

end

/-! Sweeps until nothing changes. -/

theorem first_invariant (wellFormed : grammar.WellFormed) :
    grammar.FirstInvariant grammar.first :=
  stabilize_induct grammar.FirstInvariant (fun _ kept => kept.sweep wellFormed) _ _
    (begun_invariant wellFormed).1

theorem weight_lt_budget (keyed : sets.keys = grammar.nonterminals)
    (within : sets.Within grammar.memberCategories) : sets.weight ≤ grammar.sweepBudget - 1 := by
  have bound := CategorySets.weight_le within
  have count : sets.length = grammar.nonterminals.length := by
    rw [← keyed, CategorySets.keys, length_map]
  have room : grammar.memberCategories.length = grammar.terminals.length + 2 := by
    simp [memberCategories]
  rw [count, room] at bound
  simpa [sweepBudget] using bound

section

variable (wellFormed : grammar.WellFormed)
include wellFormed

/-- A sweep over the computed FIRST sets adds nothing, since the weight of the sets grows with every sweep that is not the last. -/
theorem first_fixed :
    grammar.firstSweep grammar.first = grammar.first := by
  refine stabilize_fixed grammar.FirstInvariant CategorySets.weight (grammar.sweepBudget - 1)
    (fun _ kept => kept.sweep wellFormed)
    (fun _ kept => weight_lt_budget kept.keyed kept.within) ?_ _ _ (begun_invariant wellFormed).1 ?_
  · intro sets
    exact foldl_grows CategorySets.weight (fun sets _ => CategorySets.add_grows sets _ _) _ _
  · have positive : 0 < grammar.sweepBudget := by simp [sweepBudget]
    omega

theorem first_closed (member : production ∈ grammar.productions)
    (shown : category ∈ firstOf grammar.first production.body) :
    category ∈ grammar.first.get production.lhs := by
  -- A sweep that changes nothing is made of additions that change nothing.
  have same := foldl_fixed CategorySets.weight
    (fun sets (production : Production) => CategorySets.add_grows sets production.lhs
      (firstOf sets production.rhs)) (first_fixed wellFormed) production member
  have known : production.lhs ∈ grammar.first.keys := by
    rw [(first_invariant wellFormed).keyed, wellFormed.mem_nonterminals]
    exact isNonterminal_lhs member
  rw [← same, CategorySets.mem_get_add known, firstOf_rhs]
  exact Or.inr ⟨rfl, shown⟩

/-! Exactness. -/

theorem Vanishes.shown (vanishes : grammar.Vanishes symbol) :
    Shown grammar.first symbol Category.epsilon := by
  induction vanishes with
  | @expand production member _ ih =>
    exact first_closed wellFormed member
      ((epsilon_mem_firstOf (wellFormed.unreserved_body member)).mpr ih)

theorem Begins.shown (begins : grammar.Begins symbol category)
    (proper : category ≠ Category.epsilon) : Shown grammar.first symbol category := by
  induction begins with
  | terminal name category => rfl
  | @expand production before after symbol category member split passed _ ih =>
    exact first_closed wellFormed member
      (split ▸ mem_firstOf_split proper (ih proper) (split ▸ wellFormed.unreserved_body member)
        fun earlier found => (passed earlier found).shown wellFormed)

/-- The FIRST set of a run holds what the run shows. -/
theorem mem_firstOf_iff_shows (unreserved : Unreserved symbols) :
    category ∈ firstOf grammar.first symbols ↔ grammar.Shows symbols category := by
  refine ⟨(first_invariant wellFormed).sound.shows unreserved, ?_⟩
  rintro (⟨rfl, vanishes⟩ | ⟨proper, before, symbol, after, rfl, passed, begins⟩)
  · exact (epsilon_mem_firstOf unreserved).mpr fun symbol member =>
      (vanishes symbol member).shown wellFormed
  · exact mem_firstOf_split proper (begins.shown wellFormed proper) unreserved
      fun earlier found => (passed earlier found).shown wellFormed

/-- A run has the empty text in its FIRST set exactly if it vanishes. -/
theorem epsilon_mem_firstOf_first
    (unreserved : Unreserved symbols) :
    Category.epsilon ∈ firstOf grammar.first symbols ↔ grammar.RunVanishes symbols := by
  simp [mem_firstOf_iff_shows wellFormed unreserved, Shows]

/-- The FIRST set of a run holds exactly the categories that it begins with. -/
theorem mem_firstOf_first (unreserved : Unreserved symbols)
    (proper : category ≠ Category.epsilon) :
    category ∈ firstOf grammar.first symbols ↔ grammar.RunBegins symbols category := by
  simp [mem_firstOf_iff_shows wellFormed unreserved, Shows, proper]

/-- The FIRST set of a non-terminal holds exactly the categories that it begins with. -/
theorem mem_first (proper : category ≠ Category.epsilon) :
    category ∈ grammar.first.get name ↔ grammar.Begins (.nonterminal name) category := by
  refine ⟨fun found => ?_, fun begins => begins.shown wellFormed proper⟩
  simpa [Shows, proper, runBegins_singleton] using
    (first_invariant wellFormed).sound name category found

theorem Begins.nonneg (begins : grammar.Begins symbol category)
    (unreserved : ∀ name found, symbol = .terminal name found → 0 ≤ found) : 0 ≤ category := by
  induction begins with
  | terminal name category => exact unreserved name category rfl
  | @expand production before after symbol category member split _ _ ih =>
    refine ih fun name found same => wellFormed.unreserved production member name found ?_
    rw [split]
    simp [same]

theorem RunBegins.nonneg (unreserved : Unreserved symbols)
    (begins : grammar.RunBegins symbols category) : 0 ≤ category := by
  obtain ⟨before, symbol, after, rfl, _, shown⟩ := begins
  exact shown.nonneg wellFormed fun name found same => unreserved name found (by simp [same])

end

end Grammar

end ThreeAddress

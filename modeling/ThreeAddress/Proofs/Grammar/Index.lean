import ThreeAddress.Proofs.Grammar.Exactness

/-!
What the index of productions answers.

The final sets are entered production after production, over what the pass for FIRST had entered before.
For a category the last entry counts and for the empty text the first, so a lookup is a search through the productions from the back or from the front.
-/

namespace ThreeAddress

open List

section

variable {α : Type} {items : List α} {test : α → Bool} {holds : α → Prop} {item : α}
  (same : ∀ item ∈ items, test item = true ↔ holds item)
include same

/-- A search finds the first item with a property. -/
theorem find?_iff : items.find? test = some item ↔ ∃ before after,
    items = before ++ item :: after ∧ holds item ∧ ∀ earlier ∈ before, ¬ holds earlier := by
  rw [find?_eq_some_iff_append]
  constructor
  · rintro ⟨here, before, after, rfl, others⟩
    refine ⟨before, after, rfl, (same _ (by simp)).mp here, fun earlier found held => ?_⟩
    have failed := others earlier found
    simp [(same earlier (by simp [found])).mpr held] at failed
  · rintro ⟨before, after, rfl, here, others⟩
    refine ⟨(same _ (by simp)).mpr here, before, after, rfl, fun earlier found => ?_⟩
    rw [Bool.not_eq_true', ← Bool.not_eq_true, same earlier (by simp [found])]
    exact others earlier found

/-- A search from the back finds the last item with a property. -/
theorem find?_reverse_iff : items.reverse.find? test = some item ↔ ∃ before after,
    items = before ++ item :: after ∧ holds item ∧ ∀ later ∈ after, ¬ holds later := by
  rw [find?_iff fun item found => same item (mem_reverse.mp found)]
  constructor
  · rintro ⟨after, before, split, here, others⟩
    exact ⟨before.reverse, after.reverse, by simpa using congrArg List.reverse split, here,
      by simpa using others⟩
  · rintro ⟨before, after, rfl, here, others⟩
    exact ⟨after.reverse, before.reverse, by simp, here, by simpa using others⟩

end

namespace ProductionIndex

variable {index : ProductionIndex} {production : Production} {name : Text} {category : Category}

theorem beginning_enter (entered : Category) :
    (index.enter production entered).beginning.lookup (name, category) =
      if production.lhs = name ∧ category ≠ Category.epsilon ∧ category = entered
        then some production else index.beginning.lookup (name, category) := by
  rw [enter]
  split
  · next isEmpty =>
    -- The empty text has a part of its own.
    have aside : ¬ (production.lhs = name ∧ category ≠ Category.epsilon ∧ category = entered) :=
      fun here => here.2.1 (here.2.2.trans isEmpty)
    rw [if_neg aside]
    split <;> rfl
  · next proper =>
    rw [lookup_cons]
    by_cases same : (name, category) = (production.lhs, entered)
    · obtain ⟨rfl, rfl⟩ := Prod.mk.inj same
      simp [proper]
    · rw [beq_eq_false_iff_ne.mpr same,
        if_neg fun here => same (Prod.ext here.1.symm here.2.2)]

theorem beginning_enterAll (categories : CategorySet) :
    (index.enterAll production categories).beginning.lookup (name, category) =
      if production.lhs = name ∧ category ≠ Category.epsilon ∧ category ∈ categories
        then some production else index.beginning.lookup (name, category) := by
  induction categories generalizing index with
  | nil => simp [enterAll]
  | cons first rest ih =>
    have entered := @ih (index.enter production first)
    simp only [enterAll, foldl_cons] at entered ⊢
    rw [entered, beginning_enter]
    grind

theorem vanishing_enter (entered : Category) :
    (index.enter production entered).vanishing.lookup name = (index.vanishing.lookup name).or
        (if production.lhs = name ∧ Category.epsilon = entered then some production else none) := by
  rw [enter]
  split
  · next isEmpty =>
    -- An entry that is there stays, and keeps the later ones out.
    by_cases owner : production.lhs = name
    · subst owner
      cases found : index.vanishing.lookup production.lhs <;> simp [found, isEmpty]
    · split <;> simp [owner, lookup_cons, beq_eq_false_iff_ne.mpr (Ne.symm owner)]
  · next proper => simp [Ne.symm proper]

theorem vanishing_enterAll (categories : CategorySet) :
    (index.enterAll production categories).vanishing.lookup name = (index.vanishing.lookup name).or
        (if production.lhs = name ∧ Category.epsilon ∈ categories then some production
        else none) := by
  induction categories generalizing index with
  | nil => simp [enterAll]
  | cons first rest ih =>
    have entered := @ih (index.enter production first)
    simp only [enterAll, foldl_cons] at entered ⊢
    rw [entered, vanishing_enter, Option.or_assoc]
    congr 1
    by_cases owner : production.lhs = name <;> by_cases here : Category.epsilon = first <;>
      by_cases later : Category.epsilon ∈ rest <;> simp [owner, here, later]

/-- Of the productions that are entered for a category the last one counts. -/
theorem beginning_foldl (sets : CategorySets) (productions : List Production) :
    (productions.foldl (fun index production =>
        index.enterAll production (Grammar.firstOf sets production.rhs)) index).beginning.lookup
        (name, category) =
      (productions.reverse.find? fun production => production.lhs = name ∧
        category ≠ Category.epsilon ∧ category ∈ Grammar.firstOf sets production.rhs).or
        (index.beginning.lookup (name, category)) := by
  induction productions generalizing index with
  | nil => rfl
  | cons production rest ih =>
    rw [foldl_cons, ih, beginning_enterAll, reverse_cons, find?_append,
      Option.or_assoc, find?_singleton]
    congr 1
    split
    · next here => simp [here]
    · next elsewhere => rw [if_neg (by simpa using elsewhere), Option.none_or]

/-- Of the productions that are entered for the empty text the first one counts. -/
theorem vanishing_foldl (sets : CategorySets) (productions : List Production) :
    (productions.foldl (fun index production =>
        index.enterAll production (Grammar.firstOf sets production.rhs)) index).vanishing.lookup
        name =
      (index.vanishing.lookup name).or (productions.find? fun production =>
        production.lhs = name ∧ Category.epsilon ∈ Grammar.firstOf sets production.rhs) := by
  induction productions generalizing index with
  | nil => simp
  | cons production rest ih =>
    rw [foldl_cons, ih, vanishing_enterAll, Option.or_assoc, find?_cons]
    congr 1
    split
    · next here => simp [here]
    · next elsewhere => simp [elsewhere]

end ProductionIndex

namespace Grammar

/-- The last-listed production of a non-terminal with a property. -/
def LastWith (grammar : Grammar) (name : Text) (holds : Production → Prop)
    (production : Production) : Prop :=
  ∃ before after, grammar.productionsOf name = before ++ production :: after ∧ holds production ∧
    ∀ later ∈ after, ¬ holds later

/-- The first-listed production of a non-terminal with a property. -/
def FirstWith (grammar : Grammar) (name : Text) (holds : Production → Prop)
    (production : Production) : Prop :=
  ∃ before after, grammar.productionsOf name = before ++ production :: after ∧ holds production ∧
    ∀ earlier ∈ before, ¬ holds earlier

variable {grammar : Grammar} {name : Text} {production : Production} {holds : Production → Prop}

theorem mem_productionsOf : production ∈ grammar.productionsOf name ↔
    production ∈ grammar.productions ∧ production.lhs = name := by
  simp [productionsOf]

theorem FirstWith.listed (first : grammar.FirstWith name holds production) :
    production ∈ grammar.productions ∧ production.lhs = name ∧ holds production := by
  obtain ⟨before, after, order, here, -⟩ := first
  have member : production ∈ grammar.productionsOf name := by simp [order]
  exact and_assoc.mp ⟨mem_productionsOf.mp member, here⟩

theorem LastWith.listed (last : grammar.LastWith name holds production) :
    production ∈ grammar.productions ∧ production.lhs = name ∧ holds production := by
  obtain ⟨before, after, order, here, -⟩ := last
  have member : production ∈ grammar.productionsOf name := by simp [order]
  exact and_assoc.mp ⟨mem_productionsOf.mp member, here⟩

section

variable (member : production ∈ grammar.productions) (holds : Production → Prop)
  (here : holds production)
include member here

theorem exists_firstWith : ∃ first, grammar.FirstWith production.lhs holds first := by
  classical
  have listed := mem_productionsOf.mpr ⟨member, rfl⟩
  have some : ((grammar.productionsOf production.lhs).find? fun other => holds other).isSome :=
    find?_isSome.mpr ⟨production, listed, decide_eq_true here⟩
  obtain ⟨first, found⟩ := Option.isSome_iff_exists.mp some
  exact ⟨first, (find?_iff fun _ _ => decide_eq_true_iff).mp found⟩

theorem exists_lastWith : ∃ last, grammar.LastWith production.lhs holds last := by
  classical
  have listed := mem_reverse.mpr (mem_productionsOf.mpr ⟨member, rfl⟩)
  have some : ((grammar.productionsOf production.lhs).reverse.find? fun other => holds other).isSome :=
    find?_isSome.mpr ⟨production, listed, decide_eq_true here⟩
  obtain ⟨last, found⟩ := Option.isSome_iff_exists.mp some
  exact ⟨last, (find?_reverse_iff fun _ _ => decide_eq_true_iff).mp found⟩

end

theorem eraseDups_nodup (names : List Text) : names.eraseDups.Nodup := by
  match names with
  | [] => simp
  | name :: rest =>
    -- The first item is taken out of the rest before the rest is treated the same way.
    have shorter : (rest.filter fun other => !other == name).length ≤ rest.length :=
      length_filter_le ..
    rw [eraseDups_cons]
    exact nodup_cons.mpr ⟨by simp [mem_eraseDups], eraseDups_nodup _⟩
termination_by names.length
decreasing_by
  simp only [length_cons]
  omega

theorem nonterminals_nodup (grammar : Grammar) : grammar.nonterminals.Nodup :=
  nodup_cons.mpr ⟨by simp, (eraseDups_nodup _).filter _⟩

/-- Grouping the productions changes no order among those of one non-terminal. -/
theorem filter_grouped (wellFormed : grammar.WellFormed) :
    grammar.grouped.filter (fun production => production.lhs == name) =
      grammar.productionsOf name := by
  have own (other : Text) : (grammar.productionsOf other).filter
      (fun production => production.lhs == name) =
        if other = name then grammar.productionsOf name else [] := by
    split
    · next same =>
      subst same
      simp [productionsOf]
    · next apart =>
      rw [filter_eq_nil_iff]
      intro production member
      rw [productionsOf, mem_filter] at member
      simp_all
  -- Every group but one is left out, and no name occurs twice.
  have picked : ∀ names : List Text, names.Nodup →
      (names.flatMap grammar.productionsOf).filter (fun production => production.lhs == name) =
        if name ∈ names then grammar.productionsOf name else [] := by
    intro names distinct
    induction names with
    | nil => rfl
    | cons other rest ih =>
      obtain ⟨fresh, distinct⟩ := nodup_cons.mp distinct
      rw [flatMap_cons, filter_append, own, ih distinct]
      by_cases same : other = name
      · subst same
        simp [fresh]
      · simp [same, Ne.symm same]
  rw [grouped, picked _ grammar.nonterminals_nodup]
  split
  · rfl
  · next missing =>
    refine (filter_eq_nil_iff.mpr fun production member same => missing ?_).symm
    exact wellFormed.mem_nonterminals.mpr (any_eq_true.mpr ⟨production, member, same⟩)

end Grammar

namespace Analysis

variable {grammar : Grammar} {category : Category} {name : Text} {production : Production}
  (wellFormed : grammar.WellFormed)
include wellFormed

/-- For a category the index tells the last production that leads with it. -/
theorem firstProduction?_iff :
    (ofGrammar grammar).firstProduction? name category = some production ↔ 0 ≤ category ∧
      grammar.LastWith name (fun listed => grammar.Leads listed.body category) production := by
  have shows {listed : Production} (member : listed ∈ grammar.productionsOf name) :
      category ∈ Grammar.firstOf grammar.first listed.rhs ↔ grammar.Shows listed.body category := by
    rw [Grammar.firstOf_rhs, Grammar.mem_firstOf_iff_shows wellFormed
      (wellFormed.unreserved_body (Grammar.mem_productionsOf.mp member).1)]
  have leads : ∀ listed ∈ grammar.productionsOf name,
      decide (category ≠ Category.epsilon ∧ category ∈ Grammar.firstOf grammar.first listed.rhs) =
        true ↔ 0 ≤ category ∧ grammar.Leads listed.body category := by
    intro listed member
    rw [decide_eq_true_iff, shows member, Grammar.shows_iff_leads wellFormed
      (wellFormed.unreserved_body (Grammar.mem_productionsOf.mp member).1), Grammar.Leads]
    have proper := @Grammar.ne_epsilon_of_nonneg category
    tauto
  have searched : (ofGrammar grammar).firstProduction? name category =
      ((grammar.productionsOf name).reverse.find? fun production =>
        category ≠ Category.epsilon ∧ category ∈ Grammar.firstOf grammar.first production.rhs).or
        (grammar.begun.index.beginning.lookup (name, category)) := by
    refine (ProductionIndex.beginning_foldl ..).trans ?_
    rw [← Grammar.filter_grouped wellFormed, ← filter_reverse, find?_filter]
    simp
  -- What the pass entered begins with the category as well, so it is asked for only in vain.
  have fresh : (ofGrammar grammar).firstProduction? name category =
      (grammar.productionsOf name).reverse.find? fun production =>
        category ≠ Category.epsilon ∧ category ∈ Grammar.firstOf grammar.first production.rhs := by
    rw [searched]
    cases last : (grammar.productionsOf name).reverse.find? _ with
    | some production => rfl
    | none =>
      cases found : grammar.begun.index.beginning.lookup (name, category) with
      | none => rfl
      | some production =>
        obtain ⟨front, back, split, -⟩ := lookup_eq_some_iff.mp found
        obtain ⟨member, proper, shown⟩ := (Grammar.begun_invariant wellFormed).2.beginning name
          category production (by simp [split])
        refine absurd ?_ (find?_eq_none.mp last production (mem_reverse.mpr member))
        exact decide_eq_true ⟨proper, (shows member).mpr shown⟩
  rw [fresh, find?_reverse_iff leads]
  constructor
  · rintro ⟨before, after, order, ⟨proper, here⟩, others⟩
    exact ⟨proper, before, after, order, here,
      fun later found there => others later found ⟨proper, there⟩⟩
  · rintro ⟨proper, before, after, order, here, others⟩
    exact ⟨before, after, order, ⟨proper, here⟩, fun later found both => others later found both.2⟩

/-- For the empty text the index tells the first production that derives it. -/
theorem epsilonProduction?_iff :
    (ofGrammar grammar).epsilonProduction? name = some production ↔
      grammar.FirstWith name (fun listed => grammar.Derives listed.body []) production := by
  have searched : (ofGrammar grammar).epsilonProduction? name =
      (grammar.productionsOf name).find? fun production =>
        Category.epsilon ∈ Grammar.firstOf grammar.first production.rhs := by
    refine (ProductionIndex.vanishing_foldl ..).trans ?_
    rw [(Grammar.begun_invariant wellFormed).2.vanishing, ← Grammar.filter_grouped wellFormed,
      find?_filter]
    simp
  have vanishes : ∀ listed ∈ grammar.productionsOf name,
      decide (Category.epsilon ∈ Grammar.firstOf grammar.first listed.rhs) = true ↔
        grammar.Derives listed.body [] := by
    intro listed member
    rw [decide_eq_true_iff, Grammar.firstOf_rhs, Grammar.epsilon_mem_firstOf_first wellFormed
      (wellFormed.unreserved_body (Grammar.mem_productionsOf.mp member).1), Grammar.runVanishes_iff]
  rw [searched]
  exact find?_iff vanishes

end Analysis

end ThreeAddress

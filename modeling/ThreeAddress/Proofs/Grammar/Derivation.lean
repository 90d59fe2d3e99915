import ThreeAddress.Grammar.Basic
import Mathlib.Logic.Relation

/-!
Sentential forms.

A form derives another one by replacing non-terminals with the bodies of their productions.
What a form can begin with, what can vanish and what can follow is said twice: by derivations, and by rules that look at one production at a time.
-/

namespace ThreeAddress

open List

/-- A chosen item of two joined lists stands in the first one or in the second one. -/
theorem append_eq_append_cons {α : Type} {left right before after : List α} {item : α}
    (split : left ++ right = before ++ item :: after) :
    (∃ rest, left = before ++ item :: rest ∧ after = rest ++ right) ∨
      ∃ rest, before = left ++ rest ∧ right = rest ++ item :: after := by
  rcases append_eq_append_iff.mp split with ⟨middle, early, late⟩ | ⟨middle, early, late⟩
  · exact Or.inr ⟨middle, early, late⟩
  · cases middle with
    | nil =>
      simp only [append_nil, nil_append] at early late
      exact Or.inr ⟨[], by simp [early], by simp [late]⟩
    | cons head rest =>
      simp only [cons_append, List.cons.injEq] at late
      obtain ⟨rfl, rfl⟩ := late
      exact Or.inl ⟨rest, early, rfl⟩

/-- The symbols that take the place of a production's non-terminal, none of which is the empty text. -/
def Production.body (production : Production) : List Symbol :=
  if production.isEpsilon then [] else production.rhs

namespace Grammar

/-- One step of a derivation: a non-terminal gives way to the body of one of its productions. -/
inductive Rewrites (grammar : Grammar) : List Symbol → List Symbol → Prop where
  | expand (before after : List Symbol) {production : Production}
      (member : production ∈ grammar.productions) :
      Rewrites grammar (before ++ .nonterminal production.lhs :: after)
        (before ++ (production.body ++ after))

/-- Any number of steps of a derivation. -/
def Derives (grammar : Grammar) : List Symbol → List Symbol → Prop :=
  Relation.ReflTransGen grammar.Rewrites

/-- A symbol that derives the empty text. -/
inductive Vanishes (grammar : Grammar) : Symbol → Prop where
  | expand {production : Production} (member : production ∈ grammar.productions)
      (inside : ∀ symbol ∈ production.body, Vanishes grammar symbol) :
      Vanishes grammar (.nonterminal production.lhs)

/-- A symbol that derives a form with a terminal of the given category in front. -/
inductive Begins (grammar : Grammar) : Symbol → Category → Prop where
  | terminal (name : Text) (category : Category) :
      Begins grammar (.terminal name category) category
  | expand {production : Production} {before after : List Symbol} {symbol : Symbol}
      {category : Category} (member : production ∈ grammar.productions)
      (split : production.body = before ++ symbol :: after)
      (passed : ∀ earlier ∈ before, Vanishes grammar earlier)
      (begins : Begins grammar symbol category) :
      Begins grammar (.nonterminal production.lhs) category

def RunVanishes (grammar : Grammar) (symbols : List Symbol) : Prop :=
  ∀ symbol ∈ symbols, grammar.Vanishes symbol

/-- A run of symbols that can begin with a category: those before the one that shows it can vanish. -/
def RunBegins (grammar : Grammar) (symbols : List Symbol) (category : Category) : Prop :=
  ∃ before symbol after, symbols = before ++ symbol :: after ∧
    grammar.RunVanishes before ∧ grammar.Begins symbol category

/-- What can stand behind a non-terminal, the end of input included. -/
inductive Follows (grammar : Grammar) : Text → Category → Prop where
  | start : Follows grammar grammar.start Category.endOfInput
  | beside {production : Production} {before after : List Symbol} {name : Text}
      {category : Category} (member : production ∈ grammar.productions)
      (split : production.body = before ++ .nonterminal name :: after)
      (begins : grammar.RunBegins after category) : Follows grammar name category
  | last {production : Production} {before after : List Symbol} {name : Text}
      {category : Category} (member : production ∈ grammar.productions)
      (split : production.body = before ++ .nonterminal name :: after)
      (passed : grammar.RunVanishes after) (outer : Follows grammar production.lhs category) :
      Follows grammar name category

/-- A category stands behind a non-terminal in a form derived from some non-terminal, or the start symbol derives a form that ends there. -/
def FollowedBy (grammar : Grammar) (name : Text) (category : Category) : Prop :=
  (category = Category.endOfInput ∧
    ∃ before, grammar.Derives [.nonterminal grammar.start] (before ++ [.nonterminal name])) ∨
  ∃ outer before word after, grammar.isNonterminal outer = true ∧
    grammar.Derives [.nonterminal outer]
      (before ++ .nonterminal name :: .terminal word category :: after)

variable {grammar : Grammar}

/-! Derivations side by side. -/

theorem Derives.refl (form : List Symbol) : grammar.Derives form form := Relation.ReflTransGen.refl

theorem Derives.trans {first second third : List Symbol} (one : grammar.Derives first second)
    (two : grammar.Derives second third) : grammar.Derives first third :=
  Relation.ReflTransGen.trans one two

theorem derives_body {production : Production} (member : production ∈ grammar.productions) :
    grammar.Derives [.nonterminal production.lhs] production.body := by
  have step := Rewrites.expand [] [] member
  simp only [nil_append, append_nil] at step
  exact Relation.ReflTransGen.single step

variable {left right : List Symbol} {symbol : Symbol} {category : Category}

theorem Derives.between (derives : grammar.Derives left right) (before after : List Symbol) :
    grammar.Derives (before ++ (left ++ after)) (before ++ (right ++ after)) := by
  induction derives with
  | refl => exact .refl _
  | tail _ step ih =>
    obtain ⟨inner, outer, member⟩ := step
    have wider := Rewrites.expand (before ++ inner) (outer ++ after) member
    simp only [append_assoc, cons_append] at ih wider ⊢
    exact Relation.ReflTransGen.tail ih wider

theorem Derives.append {left' right' : List Symbol} (first : grammar.Derives left left')
    (second : grammar.Derives right right') :
    grammar.Derives (left ++ right) (left' ++ right') := by
  have one := first.between [] right
  have two := second.between left' []
  simp only [nil_append, append_nil] at one two
  exact one.trans two

/-! What can vanish. -/

theorem Vanishes.production {symbol : Symbol} (vanishes : grammar.Vanishes symbol) :
    ∃ production ∈ grammar.productions, symbol = .nonterminal production.lhs ∧
      grammar.RunVanishes production.body := by
  cases vanishes with
  | expand member inside => exact ⟨_, member, rfl, inside⟩

theorem runVanishes_append :
    grammar.RunVanishes (left ++ right) ↔ grammar.RunVanishes left ∧ grammar.RunVanishes right := by
  simp [RunVanishes, or_imp, forall_and]

theorem Rewrites.runVanishes (step : grammar.Rewrites left right)
    (vanishes : grammar.RunVanishes right) : grammar.RunVanishes left := by
  obtain ⟨before, after, member⟩ := step
  rw [runVanishes_append, runVanishes_append] at vanishes
  obtain ⟨front, body, back⟩ := vanishes
  intro symbol found
  rcases mem_append.mp found with early | late
  · exact front symbol early
  · rcases mem_cons.mp late with rfl | behind
    · exact .expand member body
    · exact back symbol behind

theorem Vanishes.derives (vanishes : grammar.Vanishes symbol) : grammar.Derives [symbol] [] := by
  induction vanishes with
  | @expand production member inside ih =>
    -- The symbols of the body give way one after the other.
    have body : ∀ symbols : List Symbol, (∀ symbol ∈ symbols, grammar.Derives [symbol] []) →
        grammar.Derives symbols [] := by
      intro symbols each
      induction symbols with
      | nil => exact .refl _
      | cons head rest tail =>
        exact (each head (by simp)).append (tail (forall_mem_cons.mp each).2)
    exact (derives_body member).trans (body production.body ih)

/-- A run vanishes exactly if it derives the empty form. -/
theorem runVanishes_iff {symbols : List Symbol} :
    grammar.RunVanishes symbols ↔ grammar.Derives symbols [] := by
  constructor
  · intro vanishes
    induction symbols with
    | nil => exact .refl _
    | cons head rest ih =>
      exact (vanishes head (by simp)).derives.append
        (ih (forall_mem_cons.mp vanishes).2)
  · intro derives
    -- Going back from the empty form, every form before it vanishes too.
    induction derives using Relation.ReflTransGen.head_induction_on with
    | refl => simp [RunVanishes]
    | head step _ ih => exact step.runVanishes ih

/-! What a form can begin with. -/

theorem runBegins_append :
    grammar.RunBegins (left ++ right) category ↔ grammar.RunBegins left category ∨
        (grammar.RunVanishes left ∧ grammar.RunBegins right category) := by
  constructor
  · rintro ⟨before, symbol, after, split, passed, begins⟩
    -- The symbol that shows the category stands in one of the two parts.
    rcases append_eq_append_cons split with ⟨rest, early, _⟩ | ⟨rest, rfl, late⟩
    · exact Or.inl ⟨before, symbol, rest, early, passed, begins⟩
    · obtain ⟨front, back⟩ := runVanishes_append.mp passed
      exact Or.inr ⟨front, rest, symbol, after, late, back, begins⟩
  · rintro (⟨before, symbol, after, rfl, passed, begins⟩ |
      ⟨front, before, symbol, after, rfl, passed, begins⟩)
    · exact ⟨before, symbol, after ++ right, by simp, passed, begins⟩
    · exact ⟨left ++ before, symbol, after, by simp, runVanishes_append.mpr ⟨front, passed⟩, begins⟩

theorem runBegins_singleton :
    grammar.RunBegins [symbol] category ↔ grammar.Begins symbol category := by
  constructor
  · rintro ⟨before, shown, after, split, _, begins⟩
    cases before with
    | nil =>
      simp only [nil_append, List.cons.injEq] at split
      exact split.1 ▸ begins
    | cons head rest => simp at split
  · exact fun begins => ⟨[], symbol, [], rfl, by simp [RunVanishes], begins⟩

theorem not_runBegins_nil : ¬ grammar.RunBegins [] category := by
  rintro ⟨before, symbol, after, split, _⟩
  simp at split

/-- A run begins with what its first symbol shows, or with what shows behind it where it vanishes. -/
theorem runBegins_cons {rest : List Symbol} :
    grammar.RunBegins (symbol :: rest) category ↔ grammar.Begins symbol category ∨
        (grammar.Vanishes symbol ∧ grammar.RunBegins rest category) := by
  rw [← singleton_append, runBegins_append, runBegins_singleton]
  simp [RunVanishes]

theorem begins_of_body {production : Production} (member : production ∈ grammar.productions)
    (begins : grammar.RunBegins production.body category) :
    grammar.Begins (.nonterminal production.lhs) category := by
  obtain ⟨before, symbol, after, split, passed, shown⟩ := begins
  exact .expand member split passed shown

theorem Begins.production {name : Text} {category : Category}
    (begins : grammar.Begins (.nonterminal name) category) :
    ∃ production ∈ grammar.productions, production.lhs = name ∧
      grammar.RunBegins production.body category := by
  generalize shape : Symbol.nonterminal name = symbol at begins
  cases begins with
  | terminal => simp at shape
  | expand member split passed shown =>
    exact ⟨_, member, (Symbol.nonterminal.inj shape).symm, _, _, _, split, passed, shown⟩

theorem Rewrites.runBegins (step : grammar.Rewrites left right)
    (begins : grammar.RunBegins right category) : grammar.RunBegins left category := by
  obtain ⟨before, after, member⟩ := step
  rw [runBegins_append, runBegins_append] at begins
  rw [runBegins_append, runBegins_cons]
  rcases begins with front | ⟨passed, body | ⟨gone, back⟩⟩
  · exact Or.inl front
  · exact Or.inr ⟨passed, Or.inl (begins_of_body member body)⟩
  · exact Or.inr ⟨passed, Or.inr ⟨.expand member gone, back⟩⟩

theorem Begins.derives {symbol : Symbol} {category : Category}
    (begins : grammar.Begins symbol category) :
    ∃ word rest, grammar.Derives [symbol] (.terminal word category :: rest) := by
  induction begins with
  | terminal name category => exact ⟨name, [], .refl _⟩
  | @expand production before after symbol category member split passed _ ih =>
    obtain ⟨word, rest, derives⟩ := ih
    refine ⟨word, rest ++ after, (derives_body member).trans ?_⟩
    rw [split]
    have front := runVanishes_iff.mp passed
    exact front.append (derives.append (.refl after))

/-- A run begins with a category exactly if it derives a form with a terminal of it in front. -/
theorem runBegins_iff {symbols : List Symbol} :
    grammar.RunBegins symbols category ↔
      ∃ word rest, grammar.Derives symbols (.terminal word category :: rest) := by
  constructor
  · rintro ⟨before, symbol, after, rfl, passed, begins⟩
    obtain ⟨word, rest, derives⟩ := begins.derives
    exact ⟨word, rest ++ after, (runVanishes_iff.mp passed).append (derives.append (.refl after))⟩
  · rintro ⟨word, rest, derives⟩
    induction derives using Relation.ReflTransGen.head_induction_on with
    | refl => exact ⟨[], _, rest, rfl, by simp [RunVanishes], .terminal word category⟩
    | head step _ ih => exact step.runBegins ih

/-! What can follow a non-terminal. -/

/-- What follows a non-terminal by the rules follows it in some derived form. -/
theorem Follows.followedBy {name : Text} (follows : grammar.Follows name category) :
    grammar.FollowedBy name category := by
  induction follows with
  | start => exact Or.inl ⟨rfl, [], .refl _⟩
  | @beside production before after name category member split begins =>
    obtain ⟨word, rest, derives⟩ := runBegins_iff.mp begins
    refine Or.inr ⟨production.lhs, before, word, rest, ?_, (derives_body member).trans ?_⟩
    · exact any_eq_true.mpr ⟨production, member, by simp⟩
    · have wider := derives.between (before ++ [.nonterminal name]) []
      simp only [append_nil, append_assoc, cons_append, nil_append] at wider
      rwa [split]
  | @last production before after name category member split passed _ ih =>
    have gone := runVanishes_iff.mp passed
    -- The body, with all that stands behind the name gone.
    have body : grammar.Derives [.nonterminal production.lhs] (before ++ [.nonterminal name]) := by
      refine (derives_body member).trans ?_
      have wider := gone.between (before ++ [.nonterminal name]) []
      simp only [append_nil, append_assoc, cons_append, nil_append] at wider
      rwa [split]
    rcases ih with ⟨isEnd, front, derives⟩ | ⟨outer, front, word, rest, known, derives⟩
    · refine Or.inl ⟨isEnd, front ++ before, derives.trans ?_⟩
      simpa using body.between front []
    · refine Or.inr ⟨outer, front ++ before, word, rest, known, derives.trans ?_⟩
      simpa using body.between front (.terminal word category :: rest)

/--
In a form derived from a non-terminal, whatever shows behind another one follows it.

Where nothing shows behind it, what follows the first non-terminal follows it too.
-/
theorem Derives.follows {outer : Text} {form : List Symbol}
    (derives : grammar.Derives [.nonterminal outer] form) :
    ∀ before name after, form = before ++ .nonterminal name :: after →
      (∀ category, grammar.RunBegins after category → grammar.Follows name category) ∧
      (grammar.RunVanishes after → ∀ category, grammar.Follows outer category →
        grammar.Follows name category) := by
  induction derives with
  | refl =>
    intro before name after split
    cases before with
    | nil =>
      simp only [nil_append, List.cons.injEq, Symbol.nonterminal.injEq] at split
      obtain ⟨rfl, rfl⟩ := split
      exact ⟨fun _ begins => absurd begins not_runBegins_nil, fun _ _ follows => follows⟩
    | cons head rest => simp at split
  | tail _ step ih =>
    obtain ⟨front, back, member⟩ := step
    rename_i production _
    intro before name after split
    -- The name stands in front of what was replaced, inside of it, or behind it.
    rcases append_eq_append_cons split with ⟨rest, early, rfl⟩ | ⟨rest, rfl, late⟩
    · -- In front: the form before the step vanishes and begins as the one after it.
      have older := ih before name (rest ++ .nonterminal production.lhs :: back) (by simp [early])
      have wider := Rewrites.expand rest back member
      exact ⟨fun category begins => older.1 category (wider.runBegins begins),
        fun vanishes => older.2 (wider.runVanishes vanishes)⟩
    · rcases append_eq_append_cons late with ⟨inner, inside, rfl⟩ | ⟨inner, rfl, outside⟩
      · -- Inside: the production itself says what follows.
        have replaced := ih front production.lhs back rfl
        constructor
        · intro category begins
          rcases runBegins_append.mp begins with here | ⟨gone, behind⟩
          · exact .beside member inside here
          · exact .last member inside gone (replaced.1 category behind)
        · intro vanishes category outerFollows
          obtain ⟨gone, behind⟩ := runVanishes_append.mp vanishes
          exact .last member inside gone (replaced.2 behind category outerFollows)
      · -- Behind: the form before the step ends in the same way.
        exact ih (front ++ .nonterminal production.lhs :: inner) name after (by simp [outside])

theorem follows_iff_followedBy {name : Text} :
    grammar.Follows name category ↔ grammar.FollowedBy name category := by
  constructor
  · exact Follows.followedBy
  · rintro (⟨rfl, before, derives⟩ | ⟨outer, before, word, after, _, derives⟩)
    · exact (derives.follows before name [] rfl).2 (by simp [RunVanishes]) _ .start
    · exact (derives.follows before name (.terminal word category :: after) rfl).1 category
        (runBegins_cons.mpr (Or.inl (.terminal word category)))

end Grammar

end ThreeAddress

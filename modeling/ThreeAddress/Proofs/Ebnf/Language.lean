import ThreeAddress.Ebnf.Lowering
import ThreeAddress.Proofs.Syntax.Derivation
import Mathlib.Data.List.Basic

/-!
The texts that EBNF describes, and those that lowered rules derive.

Rules are related to the phrases they stand for without saying how they are made.
A grammar that owns such rules derives from every production what its expression describes.
-/

namespace ThreeAddress

open List

namespace Grammar

/-- A name whose productions have the given bodies and no others. -/
def Owns (grammar : Grammar) (name : Text) (bodies : List (List Symbol)) : Prop :=
  ∀ body, (∃ production ∈ grammar.productions, production.lhs = name ∧ production.body = body) ↔
    body ∈ bodies

variable {grammar : Grammar}

theorem Owns.produces {name : Text} {bodies : List (List Symbol)} (owns : grammar.Owns name bodies)
    {body : List Symbol} {word : List Category} (member : body ∈ bodies)
    (produces : grammar.Produces body word) : grammar.Produces [.nonterminal name] word := by
  obtain ⟨production, known, rfl, rfl⟩ := (owns body).mpr member
  obtain ⟨form, derives, spells⟩ := produces
  exact ⟨form, (derives_body known).trans derives, spells⟩

end Grammar

namespace Ebnf

/-- The expression of a production. A missing one describes the empty text. -/
def Production.body (production : Production) : Expression := production.expression.getD [[]]

/-- A part of an expression. -/
inductive Phrase where
  | term (term : Term)
  | sequence (terms : List Term)
  | choice (branches : Expression)

section

variable (productions : List Production) (category? : Text → Option Category)

/-- The texts of a phrase: what an expression of some productions describes. -/
inductive Describes : Phrase → List Category → Prop where
  | production {production : Production} {word : List Category}
    (member : production ∈ productions) (body : Describes (.choice production.body) word) :
    Describes (.term (.name production.name)) word
  | category {name : Text} {category : Category}
    (free : name ∉ productions.map Production.name) (known : category? name = some category) :
    Describes (.term (.name name)) [category]
  | token {name : Text} {category : Category} (known : category? name = some category) :
    Describes (.term (.token name)) [category]
  | group {body : Expression} {word : List Category} (inner : Describes (.choice body) word) :
    Describes (.term (.group body)) word
  | missing {body : Expression} : Describes (.term (.option body)) []
  | present {body : Expression} {word : List Category} (inner : Describes (.choice body) word) :
    Describes (.term (.option body)) word
  | done {body : Expression} : Describes (.term (.repetition body)) []
  | again {body : Expression} {first later : List Category}
    (inner : Describes (.choice body) first) (rest : Describes (.term (.repetition body)) later) :
    Describes (.term (.repetition body)) (first ++ later)
  | nil : Describes (.sequence []) []
  | cons {term : Term} {terms : List Term} {first later : List Category}
    (head : Describes (.term term) first) (tail : Describes (.sequence terms) later) :
    Describes (.sequence (term :: terms)) (first ++ later)
  | branch {terms : List Term} {branches : Expression} {word : List Category}
    (member : terms ∈ branches) (inner : Describes (.sequence terms) word) :
    Describes (.choice branches) word

variable (grammar : Grammar)

/-- Right-hand sides that stand for a phrase, with the rules of their helpers in a grammar. -/
inductive Lowered : Phrase → Alternatives → Prop where
  | production {name : Text} (known : name ∈ productions.map Production.name) :
    Lowered (.term (.name name)) [[.nonterminal name]]
  | category {name : Text} {category : Category}
    (free : name ∉ productions.map Production.name) (known : category? name = some category) :
    Lowered (.term (.name name)) [[.terminal name category]]
  | token {name : Text} {category : Category} (known : category? name = some category) :
    Lowered (.term (.token name)) [[.terminal name category]]
  | group {body : Expression} {inner : Alternatives} {rule : Text}
    (owns : grammar.Owns rule inner) (ofBody : Lowered (.choice body) inner) :
    Lowered (.term (.group body)) [[.nonterminal rule]]
  | option {body : Expression} {inner : Alternatives} {rule : Text}
    (owns : grammar.Owns rule (optional inner)) (ofBody : Lowered (.choice body) inner) :
    Lowered (.term (.option body)) [[.nonterminal rule]]
  | repetition {body : Expression} {inner : Alternatives} {rule : Text}
    (owns : grammar.Owns rule (repeated inner (.nonterminal rule)))
    (ofBody : Lowered (.choice body) inner) :
    Lowered (.term (.repetition body)) [[.nonterminal rule]]
  | nil : Lowered (.sequence []) [[]]
  | cons {term : Term} {terms : List Term} {symbol : Symbol} {symbols : List Symbol}
    (head : Lowered (.term term) [[symbol]]) (tail : Lowered (.sequence terms) [symbols]) :
    Lowered (.sequence (term :: terms)) [symbol :: symbols]
  | none : Lowered (.choice []) []
  | more {terms : List Term} {branches : Expression} {symbols : List Symbol}
    {alternatives : Alternatives} (head : Lowered (.sequence terms) [symbols])
    (tail : Lowered (.choice branches) alternatives) :
    Lowered (.choice (terms :: branches)) (symbols :: alternatives)

end

/-- A grammar in which every production has rules that stand for its expression. -/
def Covers (productions : List Production) (category? : Text → Option Category)
    (grammar : Grammar) : Prop :=
  ∀ production ∈ productions, ∃ alternatives, grammar.Owns production.name alternatives ∧
    Lowered productions category? grammar (.choice production.body) alternatives

variable {productions : List Production} {category? : Text → Option Category} {grammar : Grammar}
  {alternatives : Alternatives} {branches : Expression} {symbols : List Symbol}
  {word : List Category}

/-- Every branch has a right-hand side that stands for it, and there are no others. -/
theorem Lowered.of_choice
    (lowered : Lowered productions category? grammar (.choice branches) alternatives) :
    (∀ terms ∈ branches, ∃ symbols ∈ alternatives,
      Lowered productions category? grammar (.sequence terms) [symbols]) ∧
    ∀ symbols ∈ alternatives, ∃ terms ∈ branches,
      Lowered productions category? grammar (.sequence terms) [symbols] := by
  induction branches generalizing alternatives with
  | nil =>
    cases lowered
    simp
  | cons first rest ih =>
    cases lowered with
    | more head tail =>
      obtain ⟨forth, back⟩ := ih tail
      simp only [forall_mem_cons, exists_mem_cons_iff]
      exact ⟨⟨.inl head, fun terms later => .inr (forth terms later)⟩,
        .inl head, fun symbols later => .inr (back symbols later)⟩

/-- What a phrase describes is derived from one of the right-hand sides that stand for it. -/
theorem Describes.produced (covers : Covers productions category? grammar) {phrase : Phrase}
    (describes : Describes productions category? phrase word)
    (lowered : Lowered productions category? grammar phrase alternatives) :
    ∃ symbols ∈ alternatives, grammar.Produces symbols word := by
  -- A text is described in one way for every phrase, so the cases follow those of lowering.
  induction describes generalizing alternatives with
  | @production production word member _ ih =>
    cases lowered with
    | production known =>
      -- Names of productions may refer to each other, so their rules come from the grammar.
      obtain ⟨bodies, owns, ofBody⟩ := covers production member
      obtain ⟨symbols, inside, produces⟩ := ih ofBody
      exact ⟨_, mem_singleton_self _, owns.produces inside produces⟩
    | category free _ => exact absurd (mem_map_of_mem member) free
  | category free known =>
    cases lowered with
    | production isName => exact absurd isName free
    | category _ same =>
      cases known.symm.trans same
      exact ⟨_, mem_singleton_self _, Grammar.produces_terminal _ _⟩
  | token known =>
    cases lowered with
    | token same =>
      cases known.symm.trans same
      exact ⟨_, mem_singleton_self _, Grammar.produces_terminal _ _⟩
  | group _ ih =>
    cases lowered with
    | group owns ofBody =>
      obtain ⟨symbols, inside, produces⟩ := ih ofBody
      exact ⟨_, mem_singleton_self _, owns.produces inside produces⟩
  | missing =>
    cases lowered with
    | option owns _ =>
      exact ⟨_, mem_singleton_self _, owns.produces (by simp [optional]) Grammar.produces_nil⟩
  | present _ ih =>
    cases lowered with
    | option owns ofBody =>
      obtain ⟨symbols, inside, produces⟩ := ih ofBody
      exact ⟨_, mem_singleton_self _, owns.produces (by simp [optional, inside]) produces⟩
  | done =>
    cases lowered with
    | repetition owns _ =>
      exact ⟨_, mem_singleton_self _, owns.produces (by simp [repeated]) Grammar.produces_nil⟩
  | again _ _ ihInner ihRest =>
    have same := lowered
    cases lowered with
    | repetition owns ofBody =>
      obtain ⟨symbols, inside, produces⟩ := ihInner ofBody
      -- The rule of a repetition stands for the later rounds as well as for the first.
      obtain ⟨_, isRule, later⟩ := ihRest same
      cases mem_singleton.mp isRule
      exact ⟨_, mem_singleton_self _,
        owns.produces (by simp [repeated, inside]) (produces.append later)⟩
  | nil =>
    cases lowered
    exact ⟨_, mem_singleton_self _, Grammar.produces_nil⟩
  | cons _ _ ihHead ihTail =>
    cases lowered with
    | cons head tail =>
      obtain ⟨_, isFirst, first⟩ := ihHead head
      obtain ⟨_, isLater, later⟩ := ihTail tail
      cases mem_singleton.mp isFirst
      cases mem_singleton.mp isLater
      exact ⟨_, mem_singleton_self _, first.append later⟩
  | branch member _ ih =>
    obtain ⟨symbols, inside, ofTerms⟩ := lowered.of_choice.1 _ member
    obtain ⟨_, isSymbols, produces⟩ := ih ofTerms
    cases mem_singleton.mp isSymbols
    exact ⟨symbols, inside, produces⟩

/-- What a non-terminal stands for: the texts of every term that it was made for. -/
def Stands (productions : List Production) (category? : Text → Option Category)
    (grammar : Grammar) (name : Text) (word : List Category) : Prop :=
  ∀ term, Lowered productions category? grammar (.term term) [[.nonterminal name]] →
    Describes productions category? (.term term) word

theorem Lowered.described {terms : List Term}
    (lowered : Lowered productions category? grammar (.sequence terms) [symbols])
    (reads : Grammar.Reads (Stands productions category? grammar) symbols word) :
    Describes productions category? (.sequence terms) word := by
  induction terms generalizing symbols word with
  | nil =>
    cases lowered
    cases reads
    exact .nil
  | cons term rest ih =>
    cases lowered with
    | @cons _ _ symbol later head tail =>
      cases symbol with
      | nonterminal name =>
        obtain ⟨first, others, rfl, stands, behind⟩ := reads
        exact .cons (stands term head) (ih tail behind)
      -- Only a category is lowered to a terminal: all other terms get a name.
      | terminal name category =>
        obtain ⟨others, rfl, behind⟩ := reads
        cases head with
        | category free known => exact .cons (.category free known) (ih tail behind)
        | token known => exact .cons (.token known) (ih tail behind)

theorem Lowered.described_choice
    (lowered : Lowered productions category? grammar (.choice branches) alternatives)
    (member : symbols ∈ alternatives)
    (reads : Grammar.Reads (Stands productions category? grammar) symbols word) :
    Describes productions category? (.choice branches) word := by
  obtain ⟨terms, inside, ofTerms⟩ := lowered.of_choice.2 _ member
  exact .branch inside (ofTerms.described reads)

/-- Every production derives no more than its non-terminal stands for. -/
theorem stands_of_reads (covers : Covers productions category? grammar)
    {production : ThreeAddress.Production} (member : production ∈ grammar.productions)
    (reads : Grammar.Reads (Stands productions category? grammar) production.body word) :
    Stands productions category? grammar production.lhs word := by
  -- Every right-hand side of a name is one of those that the name was made with.
  have isBody : ∀ {bodies}, grammar.Owns production.lhs bodies → production.body ∈ bodies :=
    fun owns => (owns _).mp ⟨production, member, rfl, rfl⟩
  intro term lowered
  -- The name of a repetition stands behind its own rounds, so its case needs itself.
  have same := lowered
  cases lowered with
  | production known =>
    obtain ⟨source, inside, isSource⟩ := mem_map.mp known
    obtain ⟨bodies, owns, ofBody⟩ := covers source inside
    rw [isSource] at owns
    rw [← isSource]
    exact .production inside (ofBody.described_choice (isBody owns) reads)
  | group owns ofBody => exact .group (ofBody.described_choice (isBody owns) reads)
  | option owns ofBody =>
    rcases mem_append.mp (isBody owns) with inner | empty
    · exact .present (ofBody.described_choice inner reads)
    · rw [mem_singleton.mp empty] at reads
      cases reads
      exact .missing
  | repetition owns ofBody =>
    rcases mem_append.mp (isBody owns) with round | empty
    · -- A round is one of the right-hand sides of the body, and then the rule itself again.
      obtain ⟨symbols, inner, isRound⟩ := mem_map.mp round
      rw [← isRound] at reads
      obtain ⟨first, _, rfl, front, _, _, rfl, stands, rfl⟩ := Grammar.reads_append.mp reads
      rw [append_nil]
      exact .again (ofBody.described_choice inner front) (stands _ same)
    · rw [mem_singleton.mp empty] at reads
      cases reads
      exact .done

theorem Covers.produces_iff (covers : Covers productions category? grammar) {name : Text}
    {term : Term}
    (lowered : Lowered productions category? grammar (.term term) [[.nonterminal name]]) :
    grammar.Produces [.nonterminal name] word ↔
      Describes productions category? (.term term) word := by
  constructor
  · intro produces
    obtain ⟨first, _, rfl, stands, rfl⟩ :=
      produces.reads fun production member word => stands_of_reads covers member
    rw [append_nil]
    exact stands term lowered
  · intro describes
    obtain ⟨symbols, member, produces⟩ := describes.produced covers lowered
    rwa [mem_singleton.mp member] at produces

end Ebnf

end ThreeAddress

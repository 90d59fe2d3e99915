import ThreeAddress.Proofs.Grammar.Derivation
import ThreeAddress.Proofs.Tree.Basic
import ThreeAddress.Syntax.Tree

/-!
Derivation trees.

A syntax tree is a derivation if every node follows the grammar.
The tokens below a symbol are then a text that the symbol derives, and every derivable text has such a tree.
-/

namespace ThreeAddress

open List

/-- A form that consists of terminals for the given categories. -/
def Spells (form : List Symbol) (categories : List Category) : Prop :=
  form.map Symbol.category? = categories.map some

theorem Spells.append {left right : List Symbol} {first second : List Category}
    (one : Spells left first) (two : Spells right second) :
    Spells (left ++ right) (first ++ second) := by
  simp only [Spells, map_append] at *
  rw [one, two]

namespace SyntaxTree

theorem tokens_leaf (id : Nat) (label : Label) :
    tokens (.node id label []) = label.token.toList := by
  rw [tokens, Tree.leaves_node]
  cases found : label.token with
  | none => simp [Tree.value, found]
  | some token => simp [Tree.value, found]

theorem tokens_node {label : Label} (id : Nat) (children : List SyntaxTree)
    (inner : label.token = none) :
    tokens (.node id label children) = children.flatMap tokens := by
  cases children with
  | nil => simp [tokens_leaf, inner]
  | cons first rest =>
    simp only [tokens, Tree.leaves_node, isEmpty_cons, Bool.false_eq_true, if_false,
      filterMap_flatMap]
    rfl

end SyntaxTree

namespace Grammar

/-- A node that follows the grammar: a terminal with a token of its category, or a non-terminal above the body of one of its productions. -/
def Allows (grammar : Grammar) (node : SyntaxTree) : Prop :=
  match node.value.symbol with
  | .terminal _ category => node.children = [] ∧
      ∃ token, node.value.token = some token ∧ token.category = category
  | .nonterminal name => node.value.token = none ∧
      ∃ production ∈ grammar.productions, production.lhs = name ∧
        node.children.map SyntaxTree.symbol = production.body

/-- A tree every node of which follows the grammar. -/
def IsDerivation (grammar : Grammar) (tree : SyntaxTree) : Prop := tree.Every grammar.Allows

/-- The texts of a grammar, by the categories of their tokens. -/
def Generates (grammar : Grammar) (categories : List Category) : Prop :=
  ∃ form, grammar.Derives [.nonterminal grammar.start] form ∧ Spells form categories

/-- The texts that some symbols derive, by their categories. -/
def Produces (grammar : Grammar) (symbols : List Symbol) (word : List Category) : Prop :=
  ∃ form, grammar.Derives symbols form ∧ Spells form word

variable {grammar : Grammar} {word : List Category}

theorem isDerivation_terminal (id : Nat) (name : Text) {category : Category} {token : Token}
    (same : token.category = category) :
    grammar.IsDerivation (.node id { symbol := .terminal name category, token := some token } []) :=
  Tree.every_node.mpr ⟨⟨rfl, token, rfl, same⟩, by simp⟩

theorem isDerivation_nonterminal (id : Nat) {production : Production}
    (member : production ∈ grammar.productions) {children : List SyntaxTree}
    (symbols : children.map SyntaxTree.symbol = production.body)
    (below : ∀ child ∈ children, grammar.IsDerivation child) :
    grammar.IsDerivation (.node id { symbol := .nonterminal production.lhs } children) :=
  Tree.every_node.mpr ⟨⟨rfl, production, member, rfl, symbols⟩, below⟩

theorem IsDerivation.cases {tree : SyntaxTree} (derivation : grammar.IsDerivation tree) :
    (∃ id name token, tree =
      .node id { symbol := .terminal name token.category, token := some token } []) ∨
    ∃ id, ∃ production ∈ grammar.productions, ∃ children,
      tree = .node id { symbol := .nonterminal production.lhs } children ∧
      children.map SyntaxTree.symbol = production.body ∧
      ∀ child ∈ children, grammar.IsDerivation child := by
  obtain ⟨id, ⟨symbol, token⟩, children⟩ := tree
  obtain ⟨allowed, below⟩ := Tree.every_node.mp derivation
  cases symbol with
  | terminal name category =>
    obtain ⟨rfl, found, rfl, rfl⟩ := allowed
    exact .inl ⟨id, name, found, rfl⟩
  | nonterminal name =>
    obtain ⟨rfl, production, member, rfl, symbols⟩ := allowed
    exact .inr ⟨id, production, member, children, rfl, symbols, below⟩

theorem IsDerivation.induct {motive : (tree : SyntaxTree) → grammar.IsDerivation tree → Prop}
    (leaf : ∀ id name (token : Token),
      motive _ (isDerivation_terminal id name (@rfl _ token.category)))
    (node : ∀ id production children member symbols below,
      (∀ child found, motive child (below child found)) →
      motive _ (@isDerivation_nonterminal grammar id production member children symbols below))
    {tree : SyntaxTree} (derivation : grammar.IsDerivation tree) : motive tree derivation := by
  induction tree using Tree.induct with
  | node id label children ih =>
    rcases derivation.cases with ⟨_, name, token, same⟩ |
      ⟨_, production, member, _, same, symbols, below⟩
    · cases same
      exact leaf id name token
    · cases same
      exact node id production children member symbols below fun child found => ih child found _

theorem produces_nil : grammar.Produces [] [] := ⟨[], .refl _, rfl⟩

theorem produces_terminal (name : Text) (category : Category) :
    grammar.Produces [.terminal name category] [category] :=
  ⟨_, .refl _, rfl⟩

theorem Produces.append {left right : List Symbol} {first second : List Category}
    (one : grammar.Produces left first) (two : grammar.Produces right second) :
    grammar.Produces (left ++ right) (first ++ second) := by
  obtain ⟨form, derives, spells⟩ := one
  obtain ⟨other, derivesToo, spellsToo⟩ := two
  exact ⟨form ++ other, derives.append derivesToo, spells.append spellsToo⟩

/-- A text begins with what shows in front of its symbols, unless it is empty and they vanish. -/
theorem Produces.begins {symbols : List Symbol} (produces : grammar.Produces symbols word) :
    word = [] ∧ grammar.RunVanishes symbols ∨
      ∃ category later, word = category :: later ∧ grammar.RunBegins symbols category := by
  obtain ⟨form, derives, spells⟩ := produces
  cases word with
  | nil =>
    obtain rfl : form = [] := by simpa [Spells] using spells
    exact .inl ⟨rfl, runVanishes_iff.mpr derives⟩
  | cons category later =>
    refine .inr ⟨category, later, rfl, ?_⟩
    cases form with
    | nil => simp [Spells] at spells
    | cons symbol others =>
      cases symbol with
      | nonterminal name => simp [Spells, Symbol.category?] at spells
      | terminal name found =>
        obtain rfl : found = category := by simpa [Symbol.category?] using (List.cons.inj spells).1
        exact runBegins_iff.mpr ⟨name, others, derives⟩

/-- Trees produce a text side by side if each of them does. -/
theorem produces_trees (forest : List SyntaxTree)
    (each : ∀ tree ∈ forest, grammar.Produces [SyntaxTree.symbol tree]
      ((SyntaxTree.tokens tree).map Token.category)) :
    grammar.Produces (forest.map SyntaxTree.symbol)
      ((forest.flatMap SyntaxTree.tokens).map Token.category) := by
  induction forest with
  | nil => exact produces_nil
  | cons tree rest ih =>
    rw [flatMap_cons, map_append]
    exact (each tree (by simp)).append (ih (forall_mem_cons.mp each).2)

theorem IsDerivation.produces {tree : SyntaxTree} (derivation : grammar.IsDerivation tree) :
    grammar.Produces [SyntaxTree.symbol tree] ((SyntaxTree.tokens tree).map Token.category) := by
  induction derivation using IsDerivation.induct with
  | leaf id name token =>
    rw [SyntaxTree.tokens_leaf]
    exact produces_terminal name token.category
  | node id production children member symbols below ih =>
    obtain ⟨form, derives, spelled⟩ := produces_trees children ih
    rw [symbols] at derives
    refine ⟨form, (derives_body member).trans derives, ?_⟩
    rwa [SyntaxTree.tokens_node _ _ rfl]

theorem runVanishes_of_forest {forest : List SyntaxTree}
    (derivations : ∀ tree ∈ forest, grammar.IsDerivation tree)
    (empty : forest.flatMap SyntaxTree.tokens = []) :
    grammar.RunVanishes (forest.map SyntaxTree.symbol) := by
  have produces := produces_trees forest fun tree found => (derivations tree found).produces
  rw [empty] at produces
  rcases produces.begins with ⟨-, vanishes⟩ | ⟨_, _, none, -⟩
  · exact vanishes
  · cases none

theorem runBegins_of_forest {forest : List SyntaxTree}
    (derivations : ∀ tree ∈ forest, grammar.IsDerivation tree) {token : Token}
    {others : List Token} (read : forest.flatMap SyntaxTree.tokens = token :: others) :
    grammar.RunBegins (forest.map SyntaxTree.symbol) token.category := by
  have produces := produces_trees forest fun tree found => (derivations tree found).produces
  rw [read] at produces
  rcases produces.begins with ⟨none, -⟩ | ⟨_, _, same, begins⟩
  · cases none
  · cases same
    exact begins

theorem Derives.forest {form target : List Symbol} (derives : grammar.Derives form target)
    {tokens : List Token} (spelled : Spells target (tokens.map Token.category)) :
    ∃ forest : List SyntaxTree, forest.map SyntaxTree.symbol = form ∧
      (∀ tree ∈ forest, grammar.IsDerivation tree) ∧
      forest.flatMap SyntaxTree.tokens = tokens := by
  -- The derivation is followed from its end, so that each step puts a node above trees already there.
  induction derives using Relation.ReflTransGen.head_induction_on with
  | refl =>
    induction target generalizing tokens with
    | nil =>
      cases tokens with
      | nil => exact ⟨[], rfl, by simp, rfl⟩
      | cons token rest => simp [Spells] at spelled
    | cons symbol rest ih =>
      cases tokens with
      | nil => simp [Spells] at spelled
      | cons token others =>
        simp only [Spells, map_cons, List.cons.injEq] at spelled
        obtain ⟨forest, symbols, derivations, read⟩ := ih spelled.2
        cases symbol with
        | nonterminal name => simp [Symbol.category?] at spelled
        | terminal name category =>
          have same : token.category = category := by
            simpa [Symbol.category?, eq_comm] using spelled.1
          refine ⟨.node 0 { symbol := .terminal name category, token := some token } [] :: forest,
            by simp [symbols, SyntaxTree.symbol, Tree.value], ?_,
            by simp [SyntaxTree.tokens_leaf, read]⟩
          intro tree member
          rcases mem_cons.mp member with rfl | inside
          · exact isDerivation_terminal 0 name same
          · exact derivations tree inside
  | head step _ ih =>
    obtain @⟨before, after, production, member⟩ := step
    obtain ⟨forest, symbols, derivations, read⟩ := ih
    obtain ⟨front, others, rfl, named, split⟩ := map_eq_append_iff.mp symbols
    obtain ⟨children, back, rfl, body, tail⟩ := map_eq_append_iff.mp split
    refine ⟨front ++ .node 0 { symbol := .nonterminal production.lhs } children :: back, ?_, ?_, ?_⟩
    · simp [named, tail, SyntaxTree.symbol, Tree.value]
    · intro tree inside
      simp only [mem_append, mem_cons] at inside
      rcases inside with early | rfl | late
      · exact derivations tree (by simp [early])
      · exact isDerivation_nonterminal 0 member body fun child found =>
          derivations child (by simp [found])
      · exact derivations tree (by simp [late])
    · rw [← read]
      simp [SyntaxTree.tokens_node]

theorem generates_iff {tokens : List Token} :
    grammar.Generates (tokens.map Token.category) ↔ ∃ tree, grammar.IsDerivation tree ∧
        SyntaxTree.symbol tree = .nonterminal grammar.start ∧ SyntaxTree.tokens tree = tokens := by
  constructor
  · rintro ⟨form, derives, spelled⟩
    obtain ⟨forest, symbols, derivations, read⟩ := derives.forest spelled
    obtain ⟨tree, rfl, symbol⟩ := map_eq_singleton_iff.mp symbols
    exact ⟨tree, derivations tree (by simp), symbol, by simpa using read⟩
  · rintro ⟨tree, derivation, symbol, rfl⟩
    have produces := derivation.produces
    rwa [symbol] at produces

/-! Texts symbol by symbol. -/

/-- Words read off some symbols, given the words of non-terminals. -/
def Reads (meaning : Text → List Category → Prop) : List Symbol → List Category → Prop
  | [], word => word = []
  | .terminal _ category :: rest, word =>
    ∃ later, word = category :: later ∧ Reads meaning rest later
  | .nonterminal name :: rest, word =>
    ∃ first later, word = first ++ later ∧ meaning name first ∧ Reads meaning rest later

variable {meaning : Text → List Category → Prop}

theorem reads_append {left right : List Symbol} :
    Reads meaning (left ++ right) word ↔
      ∃ first later, word = first ++ later ∧ Reads meaning left first ∧
        Reads meaning right later := by
  induction left generalizing word with
  | nil =>
    constructor
    · intro reads
      exact ⟨[], word, rfl, rfl, reads⟩
    · rintro ⟨_, later, rfl, rfl, reads⟩
      exact reads
  | cons symbol rest ih =>
    cases symbol with
    | terminal name category =>
      simp only [cons_append, Reads, ih]
      constructor
      · rintro ⟨_, rfl, first, later, rfl, front, back⟩
        exact ⟨category :: first, later, rfl, ⟨first, rfl, front⟩, back⟩
      · rintro ⟨_, later, rfl, ⟨first, rfl, front⟩, back⟩
        exact ⟨first ++ later, rfl, first, later, rfl, front, back⟩
    | nonterminal name =>
      simp only [cons_append, Reads, ih]
      constructor
      · rintro ⟨head, _, rfl, means, first, later, rfl, front, back⟩
        exact ⟨head ++ first, later, by simp, ⟨head, first, rfl, means, front⟩, back⟩
      · rintro ⟨_, later, rfl, ⟨head, first, rfl, means, front⟩, back⟩
        exact ⟨head, first ++ later, by simp, means, first, later, rfl, front, back⟩

theorem reads_of_spells {form : List Symbol} (spells : Spells form word) :
    Reads meaning form word := by
  induction form generalizing word with
  | nil => simpa [Spells, Reads] using spells
  | cons symbol rest ih =>
    cases word with
    | nil => simp [Spells] at spells
    | cons category later =>
      simp only [Spells, map_cons, List.cons.injEq] at spells
      cases symbol with
      | nonterminal name => simp [Symbol.category?] at spells
      | terminal name found =>
        obtain ⟨same, others⟩ := spells
        cases same
        exact ⟨later, rfl, ih others⟩

theorem Produces.reads {symbols : List Symbol} (produces : grammar.Produces symbols word)
    (closed : ∀ production ∈ grammar.productions, ∀ word, Reads meaning production.body word →
      meaning production.lhs word) : Reads meaning symbols word := by
  obtain ⟨form, derives, spells⟩ := produces
  -- Going back from the last form, every step joins a body to its non-terminal.
  induction derives using Relation.ReflTransGen.head_induction_on with
  | refl => exact reads_of_spells spells
  | head step _ ih =>
    obtain ⟨before, after, member⟩ := step
    obtain ⟨first, _, rfl, front, rest⟩ := reads_append.mp ih
    obtain ⟨inner, last, rfl, body, back⟩ := reads_append.mp rest
    exact reads_append.mpr ⟨first, inner ++ last, rfl, front,
      inner, last, rfl, closed _ member inner body, back⟩

end Grammar

end ThreeAddress

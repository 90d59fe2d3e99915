import ThreeAddress.Proofs.Source.Reading

/-!
Where the trees of programs hold names.

A declaration, an assignment, a call and a function have their name at one place, whatever else normalization leaves of them.
-/

namespace ThreeAddress.Language

open List

/-- The non-terminals that have a name, and its place among their children. -/
def namePlaces : List (Text × Nat) := [("DECL", 2), ("ASSIGN", 0), ("CALL", 1), ("FUNC", 2)]

/-- A node that holds names where they belong, and whose own name is of a given kind. -/
structure Names (names : Handle → Prop) (tree : SyntaxTree) : Prop where
  token : tree.value.token.map Token.category = tree.value.symbol.category?
  known : ∀ token, tree.value.token = some token → token.category = identifier → names token.handle
  placed : ∀ entry ∈ namePlaces, tree.value.symbol = .nonterminal entry.1 →
    ∀ child, tree.children[entry.2]? = some child → child.value.symbol.category? = some identifier
  calls : tree.value.symbol = .nonterminal "CALLSTMT" →
    ∀ child, tree.children[0]? = some child → child.value.symbol = .nonterminal "CALL"

variable {names : Handle → Prop}

theorem Names.handle {tree : SyntaxTree} (named : Names names tree)
    (isName : tree.value.symbol.category? = some identifier) :
    ∃ token, tree.value.token = some token ∧ token.category = identifier ∧ names token.handle := by
  have category := named.token
  rw [isName] at category
  obtain ⟨token, found, same⟩ := Option.map_eq_some_iff.mp category
  exact ⟨token, found, same, named.known token found same⟩

theorem names_leaf (id : Nat) (name : Text) {token : Token}
    (known : token.category = identifier → names token.handle) :
    Tree.Every (Names names)
      (.node id { symbol := .terminal name token.category, token := some token } []) := by
  refine Tree.every_node.mpr ⟨⟨rfl, ?_, ?_, nofun⟩, by simp⟩
  · rintro other same isName
    cases same
    exact known isName
  · rintro entry - same
    cases same

variable {forest : List SyntaxTree} {tree : SyntaxTree} {tokens : List Token}

theorem mem_close {id : Nat} {label : Label} (member : tree ∈ normalizer.close id label forest) :
    tree = .node id label forest ∨ tree ∈ forest := by
  cases forest with
  | nil => cases member
  | cons first rest =>
    cases rest with
    | nil => exact .inr member
    | cons second rest =>
      simp only [Normalizer.close, Normalizer.ungroup, Tree.children] at member
      split at member
      · next same =>
        cases same
        split at member
        · obtain rfl := mem_singleton.mp member
          exact .inr (by simp)
        · exact .inl (mem_singleton.mp member)
      · exact .inl (mem_singleton.mp member)

theorem mem_forest {trees : List SyntaxTree} {left : SyntaxTree}
    (member : left ∈ normalizer.forest trees) : ∃ tree ∈ trees, left ∈ normalizer.forest [tree] := by
  induction trees with
  | nil => cases member
  | cons tree rest ih =>
    rw [normalizer.forest_cons] at member
    rcases mem_append.mp member with here | later
    · exact ⟨tree, mem_cons_self, here⟩
    · obtain ⟨other, isOther, found⟩ := ih later
      exact ⟨other, mem_cons_of_mem _ isOther, found⟩

variable {child : SyntaxTree}

theorem Side.named {literals : Handle → Prop} {roles : List Role}
    (side : Side (Form names literals) (.name :: roles) tokens forest)
    (found : forest[0]? = some child) : child.value.symbol.category? = some identifier := by
  obtain ⟨token, place, _, _, -, rfl, leaf, category, -⟩ := side.name
  cases found
  rw [leaf.category?, category]

variable {body : List Role}

/-- The children of a declaration, an assignment, a call or a function hold a name at its place. -/
theorem placed_of_side {name : Text} (member : body ∈ (Role.ofSymbol (.nonterminal name)).bodies)
    (side : Side (Form (fun _ => True) fun _ => True) body tokens forest) :
    ∀ entry ∈ namePlaces, name = entry.1 → ∀ child, forest[entry.2]? = some child →
      child.value.symbol.category? = some identifier := by
  intro entry listed same child found
  subst same
  simp only [namePlaces, mem_cons, not_mem_nil, or_false] at listed
  -- Each of them has one body, in which only words and types stand before the name.
  rcases listed with rfl | rfl | rfl | rfl
  all_goals obtain rfl : body = _ := mem_singleton.mp member
  · obtain ⟨_, _, _, _, -, rfl, -, -, side⟩ := side.word
    obtain ⟨_, _, _, _, -, rfl, -, -, side⟩ := side.type
    exact side.named found
  · exact side.named found
  · obtain ⟨_, _, _, _, -, rfl, -, -, side⟩ := side.word
    exact side.named found
  · obtain ⟨_, _, _, _, -, rfl, -, -, side⟩ := side.word
    obtain ⟨_, _, _, _, -, rfl, -, -, side⟩ := side.type
    exact side.named found

theorem call_of_side (member : body ∈ (Role.ofSymbol (.nonterminal "CALLSTMT")).bodies)
    (side : Side (Form (fun _ => True) fun _ => True) body tokens forest)
    (found : forest[0]? = some child) : child.value.symbol = .nonterminal "CALL" := by
  obtain rfl : body = _ := mem_singleton.mp member
  obtain ⟨_, _, _, _, -, rfl, ⟨tree, _, rfl, isCall, -⟩, -⟩ := side
  cases found
  exact isCall

theorem side_of_production {production : Production}
    (member : production ∈ standardGrammar.productions) {children : List SyntaxTree}
    (symbols : children.map SyntaxTree.symbol = production.body)
    (below : ∀ child ∈ children, standardGrammar.IsDerivation child) :
    ∃ body ∈ (Role.ofSymbol (.nonterminal production.lhs)).bodies,
      Side (Form (fun _ => True) fun _ => True) body (children.flatMap SyntaxTree.tokens)
        (normalizer.forest children) := by
  have body := (Role.fits member).bodies
  rw [← symbols, map_map] at body
  exact ⟨_, body, side_of_children fun child inside => form_of_derivation (below child inside)
    fun _ _ => ⟨fun _ => trivial, fun _ => trivial⟩⟩

theorem names_forest (derivation : standardGrammar.IsDerivation tree)
    (known : ∀ token ∈ SyntaxTree.tokens tree, token.category = identifier → names token.handle) :
    ∀ left ∈ normalizer.forest [tree], left.Every (Names names) := by
  induction derivation using Grammar.IsDerivation.induct with
  | leaf id name token =>
    rw [normalizer.forest_terminal id rfl]
    intro left isLeft
    obtain rfl := mem_singleton.mp isLeft
    exact names_leaf id name (known token (by simp [SyntaxTree.tokens_leaf]))
  | node id production children member symbols below ih =>
    rw [SyntaxTree.tokens_node _ _ rfl] at known
    have fitting := Role.fits member
    -- What the children leave is left of one of them, whose tokens are some of those of the node.
    have inner : ∀ left ∈ normalizer.forest children, left.Every (Names names) := by
      intro left isLeft
      obtain ⟨child, isChild, ofChild⟩ := mem_forest isLeft
      exact ih child isChild (fun token found =>
        known token (mem_flatMap.mpr ⟨child, isChild, found⟩)) left ofChild
    -- A wrapper leaves what its children leave, and any other node may stay above that.
    cases wrapper : (Role.ofSymbol (.nonterminal production.lhs)).isWrapper with
    | true =>
      rw [normalizer.forest_wrapper id children (fitting.wrapper.trans wrapper)]
      exact inner
    | false =>
      rw [normalizer.forest_plain id children (fitting.wrapper.trans wrapper) rfl]
      intro left isLeft
      rcases mem_close isLeft with rfl | isInner
      · -- The node stays above what its children leave, which has the form of a body.
        obtain ⟨body, listed, side⟩ := side_of_production member symbols below
        refine Tree.every_node.mpr ⟨⟨rfl, nofun, ?_, ?_⟩, inner⟩
        · intro entry isPlace same child found
          exact placed_of_side listed side entry isPlace (Symbol.nonterminal.inj same) child found
        · intro same child found
          rw [Symbol.nonterminal.inj same] at listed
          exact call_of_side listed side found
      · exact inner left isInner

/-- The abstract syntax tree of a program holds names where they belong. -/
theorem names_normalize (derivation : standardGrammar.IsDerivation tree)
    (start : SyntaxTree.symbol tree = .nonterminal standardGrammar.start)
    (known : ∀ token ∈ SyntaxTree.tokens tree, token.category = identifier → names token.handle) :
    (Compiler.normalize tree).Every (Names names) := by
  have every := names_forest derivation known
  obtain ⟨id, label, children⟩ := tree
  have symbol : label.symbol = .nonterminal programName := by
    rw [← standardGrammar_start]
    exact start
  rcases derivation.cases with ⟨_, _, _, same⟩ | ⟨_, production, member, _, same, symbols, below⟩
  · cases same
    cases symbol
  · cases same
    obtain ⟨body, listed, side⟩ := side_of_production member symbols below
    rw [Symbol.nonterminal.inj symbol] at listed
    obtain rfl : body = _ := mem_singleton.mp listed
    -- The opening and the closing word are always there, so that the root stays.
    have several : 2 ≤ (normalizer.forest children).length := by
      obtain ⟨_, _, _, _, -, forest, -, side⟩ := side
      obtain ⟨_, _, _, _, -, rfl, -, -, side⟩ := side.word
      obtain ⟨_, _, _, _, -, rfl, -, side⟩ := side
      obtain ⟨_, _, _, _, -, rfl, -⟩ := side.word
      simp only [forest, length_append, length_cons]
      omega
    have root := normalizer.normalize_root id children (by rw [symbol]; rfl) several
    rw [root] at every
    exact every _ (mem_singleton.mpr rfl)

end ThreeAddress.Language

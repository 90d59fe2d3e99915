import ThreeAddress.Proofs.Language.Roles
import ThreeAddress.Proofs.Syntax.Derivation

/-!
What the leaves of a program are for, by their places in the tree.

A leaf that declares a name, and a leaf that opens or closes a scope, is known by its parent and by its position below it.
What every body does to some state, the leaves of a whole tree do one after the other.
-/

namespace ThreeAddress.Language

open List

/-- What a leaf does to the scopes of a program. -/
inductive Act where
  /-- Nothing. A name is looked up. -/
  | plain
  /-- Declares a variable in the innermost scope. -/
  | declare
  /-- Declares a function in the global scope, and opens the scope of its parameters and its body. -/
  | declareFunction
  /-- Opens the scope of the main block. -/
  | openMain
  /-- Closes the innermost scope. -/
  | close
deriving DecidableEq, Repr

namespace Act

/-- Whether a leaf declares a name. -/
def declares : Act → Bool
  | declare | declareFunction => true
  | plain | openMain | close => false

/-- The leaves that do something, by their parents and their positions below them. -/
def places : List ((Text × Nat) × Act) :=
  [(("FUNC", 2), declareFunction), (("DECL", 2), declare), (("PARAM", 1), declare),
    (("FUNC", 8), close), (("SFAA", 1), openMain), (("SFAA", 3), close)]

/-- What a leaf does below a node with the given symbol, at the given position. -/
def ofPlace (parent : Symbol) (index : Nat) : Act :=
  match parent with
  | .nonterminal name => (places.lookup (name, index)).getD plain
  | .terminal .. => plain

end Act

mutual

/-- The leaves of a tree from left to right, with what they do. The root itself does the given act. -/
def actsFrom (act : Act) : SyntaxTree → List (Token × Act)
  | .node _ label children =>
    match label.token with
    | some token => [(token, act)]
    | none => forestActs label.symbol 0 children
termination_by structural tree => tree

/-- The leaves of some children, from the given position on. -/
def forestActs (parent : Symbol) (index : Nat) : List SyntaxTree → List (Token × Act)
  | [] => []
  | tree :: rest => actsFrom (Act.ofPlace parent index) tree ++ forestActs parent (index + 1) rest
termination_by structural trees => trees

end

/-- The leaves of a tree from left to right, with what they do. -/
def acts (tree : SyntaxTree) : List (Token × Act) := actsFrom .plain tree

/-- What a symbol of a body does, by the role of its parent. -/
def Role.act : Role → Nat → Act
  | function, 2 => .declareFunction
  | declaration, 2 | param, 1 => .declare
  | function, 8 | program, 3 => .close
  | program, 1 => .openMain
  | _, _ => .plain

/-- Symbols of a body with what they do. -/
def Role.acting (role : Role) (index : Nat) (roles : List Role) : List (Role × Act) :=
  (roles.zipIdx index).map fun entry => (entry.1, role.act entry.2)

/-- What a leaf of the language does can be told from the role of its parent. -/
theorem ofPlace_eq_act {production : Production} (member : production ∈ standardGrammar.productions)
    {index : Nat} (inside : index < production.body.length) :
    Act.ofPlace (.nonterminal production.lhs) index =
      (Role.ofSymbol (.nonterminal production.lhs)).act index := by
  -- The grammar is fixed, so its productions and their positions are gone through.
  have checked : ∀ production ∈ standardGrammar.productions,
      ∀ index < production.body.length, Act.ofPlace (.nonterminal production.lhs) index =
        (Role.ofSymbol (.nonterminal production.lhs)).act index := by
    decide +kernel
  exact checked production member index inside

variable {tree : SyntaxTree} {role : Role} {roles : List Role}

theorem map_acting (role : Role) (roles : List Role) : (role.acting 0 roles).map Prod.fst = roles := by
  simp [Role.acting, Function.comp_def]

theorem bodies_ofCategory (category : Int) : (Role.ofCategory category).bodies = [] := by
  rcases Role.ofCategory_cases category with ⟨is, _⟩ | ⟨is, _⟩ | ⟨is, _⟩ | ⟨is, _⟩ | is
  all_goals rw [is]; rfl

theorem leaf_of_role (derivation : standardGrammar.IsDerivation tree)
    (leaf : (Role.ofSymbol (SyntaxTree.symbol tree)).bodies = []) :
    ∃ token, tree.value.token = some token ∧ SyntaxTree.tokens tree = [token] ∧
      Role.ofSymbol (SyntaxTree.symbol tree) = Role.ofCategory token.category := by
  rcases derivation.cases with ⟨_, name, token, rfl⟩ | ⟨_, production, member, _, rfl, _⟩
  · exact ⟨token, rfl, SyntaxTree.tokens_leaf _ _, rfl⟩
  · exact absurd leaf (ne_nil_of_mem (Role.fits member).bodies)

theorem children_of_role {id : Nat} {label : Label} {children : List SyntaxTree}
    (derivation : standardGrammar.IsDerivation (.node id label children))
    (same : Role.ofSymbol label.symbol = role) (inner : role.bodies ≠ []) :
    ∃ production ∈ standardGrammar.productions, label = { symbol := .nonterminal production.lhs } ∧
      Role.ofSymbol (.nonterminal production.lhs) = role ∧
      children.map (fun child => Role.ofSymbol (SyntaxTree.symbol child)) ∈ role.bodies ∧
      ∀ child ∈ children, standardGrammar.IsDerivation child := by
  rcases derivation.cases with ⟨_, name, token, leaf⟩ |
    ⟨_, production, member, forest, node, symbols, below⟩
  · cases leaf
    subst same
    exact absurd (bodies_ofCategory token.category) inner
  · cases node
    have body := (Role.fits member).bodies
    rw [← symbols, map_map] at body
    subst same
    exact ⟨production, member, rfl, rfl, body, below⟩

theorem actsFrom_tokens (derivation : standardGrammar.IsDerivation tree) :
    ∀ act, (actsFrom act tree).map Prod.fst = SyntaxTree.tokens tree := by
  induction derivation using Grammar.IsDerivation.induct with
  | leaf id name token =>
    intro act
    simp [actsFrom, SyntaxTree.tokens_leaf]
  | node id production children member symbols below ih =>
    intro act
    have turns : ∀ (trees : List SyntaxTree) (index : Nat), (∀ child ∈ trees, child ∈ children) →
        (forestActs (.nonterminal production.lhs) index trees).map Prod.fst =
          trees.flatMap SyntaxTree.tokens := by
      intro trees
      induction trees with
      | nil => exact fun _ _ => rfl
      | cons child rest further =>
        intro index inside
        have here := inside child (by simp)
        rw [forestActs, map_append, flatMap_cons, ih child here,
          further _ (forall_mem_cons.mp inside).2]
    rw [SyntaxTree.tokens_node _ _ rfl, ← turns children 0 fun _ found => found]
    rfl

variable {σ : Type}

theorem foldlM_acts {after : σ → Role × Act → Option σ}
    (closed : ∀ (role : Role) (act : Act), ∀ roles ∈ role.bodies, ∀ state next,
      after state (role, act) = some next → (role.acting 0 roles).foldlM after state = some next)
    (derivation : standardGrammar.IsDerivation tree) :
    ∀ {act : Act} {state next : σ},
    after state (Role.ofSymbol (SyntaxTree.symbol tree), act) = some next →
    ((actsFrom act tree).map fun leaf => (Role.ofCategory leaf.1.category, leaf.2)).foldlM after
      state = some next := by
  induction derivation using Grammar.IsDerivation.induct with
  | leaf id name token =>
    intro act state next effect
    have reading : after state (Role.ofCategory token.category, act) = some next := effect
    simpa [actsFrom] using reading
  | node id production children member symbols below ih =>
    intro act state next effect
    -- The body leads where its non-terminal does.
    have body := closed _ _ _ (Role.fits member).bodies _ _ effect
    rw [← symbols, map_map] at body
    -- The children take their turns one after the other, each with the act of its position.
    have turns : ∀ (trees : List SyntaxTree) (index : Nat) (state : σ),
        (∀ child ∈ trees, child ∈ children) → index + trees.length ≤ children.length →
        ((Role.ofSymbol (.nonterminal production.lhs)).acting index
          (trees.map (Role.ofSymbol ∘ SyntaxTree.symbol))).foldlM after state = some next →
        ((forestActs (.nonterminal production.lhs) index trees).map fun leaf =>
          (Role.ofCategory leaf.1.category, leaf.2)).foldlM after state = some next := by
      intro trees
      induction trees with
      | nil => exact fun _ _ _ _ done => done
      | cons child rest further =>
        intro index state inside bounded done
        simp only [Role.acting, map_cons, zipIdx_cons, foldlM_cons] at done
        obtain ⟨middle, first, others⟩ := Option.bind_eq_some_iff.mp done
        have here := inside child (by simp)
        have size : production.body.length = children.length := by
          rw [← symbols, length_map]
        rw [length_cons] at bounded
        rw [← ofPlace_eq_act member (by omega)] at first
        rw [forestActs, map_append, foldlM_append, ih child here first]
        exact further (index + 1) middle (forall_mem_cons.mp inside).2
          (by omega) others
    exact turns children 0 state (fun _ found => found) (by omega) body

theorem foldlM_tokens {after : σ → Role → Option σ}
    (closed : ∀ (role : Role), ∀ roles ∈ role.bodies, ∀ state next,
      after state role = some next → roles.foldlM after state = some next)
    (derivation : standardGrammar.IsDerivation tree) {state next : σ}
    (effect : after state (Role.ofSymbol (SyntaxTree.symbol tree)) = some next) :
    ((SyntaxTree.tokens tree).map fun token => Role.ofCategory token.category).foldlM after state =
      some next := by
  -- The tokens are the leaves, whatever these do.
  have acted := @foldlM_acts tree σ (fun state entry => after state entry.1)
    (fun role _ roles member state next effect => by
      rw [← @List.foldlM_map _ _ _ _ _ Prod.fst after, map_acting]
      exact closed role roles member state next effect) derivation .plain state next effect
  rw [foldlM_map] at acted
  rwa [← actsFrom_tokens derivation .plain, map_map, foldlM_map]

/-- The handles of the names among some tokens. -/
def nameHandles (tokens : List Token) : List Handle :=
  (tokens.filter fun token => token.category == identifier).map Token.handle

theorem nameHandles_append (first second : List Token) :
    nameHandles (first ++ second) = nameHandles first ++ nameHandles second := by
  simp [nameHandles]

theorem nameHandles_cons {token : Token} (notName : token.category ≠ identifier)
    (rest : List Token) : nameHandles (token :: rest) = nameHandles rest := by
  simp [nameHandles, notName]

end ThreeAddress.Language

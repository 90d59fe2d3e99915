import ThreeAddress.Proofs.Language.Tokens

/-!
The functions of a program in its symbol table.

Every function of a tree has an entry with the type and the parameters of its header, in order.
-/

namespace ThreeAddress

open List

namespace SyntaxTree

/-- The nodes of a tree with a given non-terminal, in pre-order. -/
def nodesNamed (name : Text) (tree : SyntaxTree) : List SyntaxTree :=
  (Tree.nodes tree |>.map Prod.snd).filter fun node => decide (symbol node = .nonterminal name)

theorem nodesNamed_node (name : Text) (id : Nat) (label : Label) (children : List SyntaxTree) :
    nodesNamed name (.node id label children) =
      (if label.symbol = .nonterminal name then [.node id label children] else []) ++
        children.flatMap (nodesNamed name) := by
  have below : (children.flatMap fun child => (Tree.nodes child).map Prod.snd).filter
      (fun node => decide (symbol node = .nonterminal name)) =
      children.flatMap (nodesNamed name) := by
    rw [filter_flatMap]
    rfl
  rw [nodesNamed, Tree.nodes_node, filter_cons, below]
  by_cases here : label.symbol = .nonterminal name
  · simp [symbol, here]
  · simp [symbol, here]

end SyntaxTree

namespace Language

open SyntaxTree (nodesNamed nodesNamed_node)

/-- The symbol of the name that is a child of a node. -/
def symbolAt? (node : SyntaxTree) (index : Nat) : Option Handle := do
  let child ← node.children[index]?
  let token ← child.value.token
  return token.handle

/-- The type that the first word below a child of a node names. -/
def typeAt? (node : SyntaxTree) (index : Nat) : Option ValueType := do
  let child ← node.children[index]?
  let token ← (SyntaxTree.tokens child).head?
  ValueType.ofName? token.lexeme

def parameter? (node : SyntaxTree) : Option (Handle × ValueType) := do
  let handle ← symbolAt? node 1
  let type ← typeAt? node 0
  return (handle, type)

/-- What the node of a function declares. -/
def signature? (node : SyntaxTree) : Option Signature := do
  let handle ← symbolAt? node 2
  let returns ← typeAt? node 1
  let params ← (nodesNamed "PARAM" node).mapM parameter?
  return { handle, returns, params }

/-- A symbol table in which a function has its type, and its parameters are marked and have theirs. -/
structure Signature.HeldBy (table : SymbolTable) (signature : Signature) : Prop where
  entry : ∃ entry, table.lookup? signature.handle = some (.func entry) ∧
    entry.returns = signature.returns ∧ entry.params = signature.params.map Prod.fst
  params : ∀ param ∈ signature.params, ∃ entry, table.lookup? param.1 = some (.var entry) ∧
    entry.type = param.2 ∧ entry.parameter = true

variable {signature : Signature}

theorem Signature.HeldBy.later {table later : SymbolTable} (held : signature.HeldBy table)
    (entries : table.entries <+: later.entries) :
    signature.HeldBy later where
  entry := by
    obtain ⟨entry, found, same⟩ := held.entry
    exact ⟨entry, SymbolTable.lookup?_of_prefix entries found, same⟩
  params param member := by
    obtain ⟨entry, found, same⟩ := held.params param member
    exact ⟨entry, SymbolTable.lookup?_of_prefix entries found, same⟩

/-- How far down a role stands: what is below a node stands at least as far down. -/
def Role.level : Role → Nat
  | program => 0
  | functions => 1
  | function => 2
  | params | paramsTail => 3
  | param => 4
  | _ => 5

theorem Role.level_le (role : Role) :
    ∀ roles ∈ role.bodies, ∀ below ∈ roles, role.level ≤ below.level := by
  cases role with
  | word category => simp [Role.bodies]
  | _ => decide

variable {tree : SyntaxTree} {label : Label} {children : List SyntaxTree}

theorem nodesNamed_of_role {name : Text} {id : Nat}
    (other : Role.ofSymbol label.symbol ≠ Role.ofSymbol (.nonterminal name)) :
    nodesNamed name (.node id label children) = children.flatMap (nodesNamed name) := by
  rw [nodesNamed_node, if_neg fun same => other (congrArg Role.ofSymbol same), nil_append]

theorem nodesNamed_of_level (name : Text) (derivation : standardGrammar.IsDerivation tree) :
    (Role.ofSymbol (.nonterminal name)).level < (Role.ofSymbol (SyntaxTree.symbol tree)).level →
    nodesNamed name tree = [] := by
  induction tree using Tree.induct with
  | node id label children ih =>
    intro above
    have other : Role.ofSymbol label.symbol ≠ Role.ofSymbol (.nonterminal name) := fun same =>
      Nat.ne_of_gt above (congrArg Role.level same)
    rw [nodesNamed_of_role other, flatMap_eq_nil_iff]
    intro child member
    rcases derivation.cases with ⟨_, _, _, leaf⟩ | ⟨_, production, listed, _, node, symbols, below⟩
    · cases leaf
      cases member
    · cases node
      have body := (Role.fits listed).bodies
      rw [← symbols, map_map] at body
      refine ih child member (below child member) (Nat.lt_of_lt_of_le above ?_)
      exact Role.level_le _ _ body _ (mem_map.mpr ⟨child, member, rfl⟩)

def TypesNamed (tokens : List Token) : Prop := ∀ token ∈ tokens, isTypeWord token.category = true →
    (ValueType.ofName? token.lexeme).isSome = true

theorem word_of_role {category : Int} (derivation : standardGrammar.IsDerivation tree)
    (isWord : Role.ofSymbol (SyntaxTree.symbol tree) = .word category) :
    ∃ token, SyntaxTree.tokens tree = [token] ∧ token.category = category := by
  obtain ⟨token, _, tokens, role⟩ := leaf_of_role derivation (by rw [isWord]; rfl)
  exact ⟨token, tokens, Role.eq_of_word (role.symm.trans isWord)⟩

theorem word_of_type (derivation : standardGrammar.IsDerivation tree)
    (isType : Role.ofSymbol (SyntaxTree.symbol tree) = .type) :
    ∃ token, SyntaxTree.tokens tree = [token] ∧ isTypeWord token.category = true := by
  obtain ⟨id, label, children⟩ := tree
  obtain ⟨production, _, rfl, _, body, below⟩ :=
    children_of_role derivation isType (by simp [Role.bodies])
  have single := mem_singleton.mp body
  obtain ⟨word, rest, rfl, isWord, others⟩ := map_eq_cons_iff.mp single
  obtain rfl := map_eq_nil_iff.mp others
  obtain ⟨token, _, tokens, role⟩ := leaf_of_role (below word (by simp)) (by rw [isWord]; rfl)
  refine ⟨token, ?_, Role.isTypeWord_of_role (role.symm.trans isWord)⟩
  rw [SyntaxTree.tokens_node _ _ rfl]
  simp [tokens]

/-- A list of parameters is empty, or a parameter and a further list behind a comma or not. -/
theorem children_of_list {id : Nat}
    (derivation : standardGrammar.IsDerivation (.node id label children))
    (role : Role.ofSymbol label.symbol = .params ∨ Role.ofSymbol label.symbol = .paramsTail) :
    ∃ name, label = { symbol := .nonterminal name } ∧ label.symbol ≠ .nonterminal "PARAM" ∧
      (∀ child ∈ children, standardGrammar.IsDerivation child) ∧
      (children = [] ∨ ∃ first rest, Role.ofSymbol (SyntaxTree.symbol first) = .param ∧
        Role.ofSymbol (SyntaxTree.symbol rest) = .paramsTail ∧
        (children = [first, rest] ∨ ∃ comma, Role.ofSymbol (SyntaxTree.symbol comma) = .word 25 ∧
            children = [comma, first, rest])) := by
  have inner : (Role.ofSymbol label.symbol).bodies ≠ [] := by
    rcases role with is | is <;> rw [is] <;> simp [Role.bodies]
  obtain ⟨production, _, rfl, same, body, below⟩ := children_of_role derivation rfl inner
  refine ⟨production.lhs, rfl, ?_, below, ?_⟩
  · intro isParam
    rw [isParam] at role
    rcases role with is | is <;> cases is
  rcases role with is | is
  · rw [is] at body
    rcases mem_pair.mp body with several | none
    · obtain ⟨first, _, rfl, isParam, others⟩ := map_eq_cons_iff.mp several
      obtain ⟨rest, _, rfl, isTail, nothing⟩ := map_eq_cons_iff.mp others
      obtain rfl := map_eq_nil_iff.mp nothing
      exact .inr ⟨first, rest, isParam, isTail, .inl rfl⟩
    · exact .inl (map_eq_nil_iff.mp none)
  · rw [is] at body
    rcases mem_pair.mp body with several | none
    · obtain ⟨comma, _, rfl, isComma, others⟩ := map_eq_cons_iff.mp several
      obtain ⟨first, _, rfl, isParam, others⟩ := map_eq_cons_iff.mp others
      obtain ⟨rest, _, rfl, isTail, nothing⟩ := map_eq_cons_iff.mp others
      obtain rfl := map_eq_nil_iff.mp nothing
      exact .inr ⟨first, rest, isParam, isTail, .inr ⟨comma, isComma, rfl⟩⟩
    · exact .inl (map_eq_nil_iff.mp none)

theorem InHeader.held {before : Environment} {listing : Bool} {state : LexerState}
    (header : InHeader before signature listing state) :
    signature.HeldBy state.table where
  entry := by
    obtain ⟨entry, found, same⟩ := header.entry
    exact ⟨entry, header.own ▸ found, same⟩
  params param member := by
    obtain ⟨entry, found, -, same⟩ := header.owned param member
    exact ⟨entry, found, same⟩

section

variable (derivation : standardGrammar.IsDerivation tree)
include derivation

theorem words_of_param
    (isParam : Role.ofSymbol (SyntaxTree.symbol tree) = .param)
    (types : TypesNamed (SyntaxTree.tokens tree)) :
    ∃ type name, SyntaxTree.tokens tree = [type, name] ∧ type.category ≠ identifier ∧
      name.category = identifier ∧
      (nodesNamed "PARAM" tree).mapM parameter? = some [(name.handle, namedType type)] := by
  obtain ⟨id, label, children⟩ := tree
  obtain ⟨production, listed, rfl, role, body, below⟩ :=
    children_of_role derivation isParam (by simp [Role.bodies])
  obtain ⟨type, _, rfl, isType, others⟩ := map_eq_cons_iff.mp (mem_singleton.mp body)
  obtain ⟨name, _, rfl, isName, nothing⟩ := map_eq_cons_iff.mp others
  obtain rfl := map_eq_nil_iff.mp nothing
  obtain ⟨typeToken, typeTokens, typed⟩ := word_of_type (below type (by simp)) isType
  obtain ⟨token, label, nameTokens, named⟩ :=
    leaf_of_role (below name (by simp)) (by rw [isName]; rfl)
  rw [SyntaxTree.tokens_node _ _ rfl] at types ⊢
  simp only [flatMap_cons, flatMap_nil, append_nil, typeTokens, nameTokens,
    singleton_append] at types ⊢
  refine ⟨typeToken, token, rfl, ?_, Role.eq_identifier (named.symm.trans isName), ?_⟩
  · intro same
    rw [same] at typed
    cases typed
  obtain ⟨valueType, isNamed⟩ := Option.isSome_iff_exists.mp (types typeToken (by simp) typed)
  -- Only the root is the node of a parameter.
  have isNode := (Role.fits listed).named ("PARAM", .param) (by decide) role.symm
  have nothing : [type, name].flatMap (nodesNamed "PARAM") = [] := by
    simp [nodesNamed_of_level "PARAM" (below type (by simp)) (by rw [isType]; decide),
      nodesNamed_of_level "PARAM" (below name (by simp)) (by rw [isName]; decide)]
  rw [nodesNamed_node, if_pos (by rw [isNode]), nothing]
  simp [parameter?, symbolAt?, typeAt?, typeTokens, label, isNamed, namedType]

theorem params_of_list :
    Role.ofSymbol (SyntaxTree.symbol tree) = .params ∨
      Role.ofSymbol (SyntaxTree.symbol tree) = .paramsTail →
    TypesNamed (SyntaxTree.tokens tree) → ∀ type,
    (nodesNamed "PARAM" tree).mapM parameter? = some (typedNames type (SyntaxTree.tokens tree)) := by
  induction tree using Tree.induct with
  | node id label children ih =>
    intro role types type
    obtain ⟨name, rfl, notParam, below, shape⟩ := children_of_list derivation role
    rw [SyntaxTree.tokens_node _ _ rfl] at types ⊢
    rw [nodesNamed_node, if_neg notParam, nil_append]
    -- A parameter comes first, and then those of the rest of the list.
    have front : ∀ {first rest : SyntaxTree} (type : ValueType), first ∈ children →
        rest ∈ children → Role.ofSymbol (SyntaxTree.symbol first) = .param →
        Role.ofSymbol (SyntaxTree.symbol rest) = .paramsTail →
        (nodesNamed "PARAM" first ++ nodesNamed "PARAM" rest).mapM parameter? =
          some (typedNames type (SyntaxTree.tokens first ++ SyntaxTree.tokens rest)) := by
      intro first rest type here there isParam isTail
      obtain ⟨word, token, tokens, notName, isName, single⟩ := words_of_param (below first here) isParam
        fun token member => types token (mem_flatMap.mpr ⟨first, here, member⟩)
      have others := ih rest there (below rest there) (.inr isTail)
        (fun token member => types token (mem_flatMap.mpr ⟨rest, there, member⟩))
        (namedType token)
      rw [mapM_append, single, others, tokens]
      simp [typedNames, notName, isName]
    rcases shape with rfl | ⟨first, rest, isParam, isTail, rfl | ⟨comma, isComma, rfl⟩⟩
    · rfl
    · simpa using front type (by simp) (by simp) isParam isTail
    · obtain ⟨token, tokens, separates⟩ := word_of_role (below comma (by simp)) isComma
      have notName : token.category ≠ identifier := by
        rw [separates]
        decide
      have none := nodesNamed_of_level "PARAM" (below comma (by simp)) (by rw [isComma]; decide)
      simpa [none, tokens, typedNames, notName] using
        front (namedType token) (by simp) (by simp) isParam isTail

/-- The node of a function: the words of its header, which tell its signature, and its body. -/
theorem signature_of_node
    (isFunction : Role.ofSymbol (SyntaxTree.symbol tree) = .function)
    (types : TypesNamed (SyntaxTree.tokens tree)) :
    ∃ front body last signature, SyntaxTree.tokens tree = front ++ (SyntaxTree.tokens body ++ [last]) ∧
      Heading front signature ∧ last.category = closeBrace ∧ standardGrammar.IsDerivation body ∧
      Role.ofSymbol (SyntaxTree.symbol body) = .statements ∧ nodesNamed "FUNC" tree = [tree] ∧
      signature? tree = some signature := by
  obtain ⟨id, label, children⟩ := tree
  obtain ⟨production, listed, rfl, role, roles, below⟩ :=
    children_of_role derivation isFunction (by simp [Role.bodies])
  have isNode := (Role.fits listed).named ("FUNC", .function) (by decide) role.symm
  have among : ∀ child ∈ children,
      Role.ofSymbol (SyntaxTree.symbol child) ∈ Role.function.bodies.flatten := fun child member =>
    mem_flatten.mpr ⟨_, roles, mem_map.mpr ⟨child, member, rfl⟩⟩
  have noFunction : children.flatMap (nodesNamed "FUNC") = [] := by
    refine flatMap_eq_nil_iff.mpr fun child member => ?_
    refine nodesNamed_of_level "FUNC" (below child member) ?_
    have further : ∀ role ∈ Role.function.bodies.flatten,
      (Role.ofSymbol (.nonterminal "FUNC")).level < role.level := by decide
    exact further _ (among child member)
  -- Nothing but the list of parameters stands above a parameter.
  have noParam : ∀ child ∈ children, Role.ofSymbol (SyntaxTree.symbol child) ≠ .params →
      nodesNamed "PARAM" child = [] := by
    intro child member other
    refine nodesNamed_of_level "PARAM" (below child member) ?_
    have further : ∀ role ∈ Role.function.bodies.flatten, role ≠ .params →
      (Role.ofSymbol (.nonterminal "PARAM")).level < role.level := by decide
    exact further _ (among child member) other
  simp only [Role.bodies, mem_singleton, map_eq_cons_iff, map_eq_nil_iff] at roles
  obtain ⟨word, _, rfl, isWord, type, _, rfl, isType, name, _, rfl, isName, opening, _, rfl,
    isOpening, params, _, rfl, isParams, closing, _, rfl, isClosing, brace, _, rfl, isBrace,
    body, _, rfl, isBody, last, _, rfl, isLast, rfl⟩ := roles
  simp only [mem_cons, not_mem_nil, or_false, forall_eq_or_imp, forall_eq] at below
  obtain ⟨derivesWord, derivesType, derivesName, derivesOpening, derivesParams, derivesClosing,
    derivesBrace, derivesBody, derivesLast⟩ := below
  obtain ⟨wordToken, wordTokens, opens⟩ := word_of_role derivesWord isWord
  obtain ⟨typeToken, typeTokens, typed⟩ := word_of_type derivesType isType
  obtain ⟨nameToken, nameLabel, nameTokens, naming⟩ :=
    leaf_of_role derivesName (by rw [isName]; rfl)
  obtain ⟨openToken, openTokens, starts⟩ := word_of_role derivesOpening isOpening
  obtain ⟨closeToken, closeTokens, closes⟩ := word_of_role derivesClosing isClosing
  obtain ⟨braceToken, braceTokens, braces⟩ := word_of_role derivesBrace isBrace
  obtain ⟨lastToken, lastTokens, stops⟩ := word_of_role derivesLast isLast
  have heading := (⟨wordToken, typeToken, nameToken, openToken, _, closeToken, braceToken, rfl,
    opens, typed, Role.eq_identifier (naming.symm.trans isName), starts, closes, braces,
    listedAll_tokens derivesParams (by rw [isParams]; rfl), rfl⟩ : Heading _ _)
  rw [SyntaxTree.tokens_node _ _ rfl] at types ⊢
  refine ⟨_, body, lastToken, _, by simp [wordTokens, typeTokens, nameTokens, openTokens,
    closeTokens, braceTokens, lastTokens], heading, stops, derivesBody, isBody, by rw [nodesNamed_node, if_pos (by rw [isNode]), noFunction,
      append_nil], ?_⟩
  have notParam : Symbol.nonterminal production.lhs ≠ .nonterminal "PARAM" := by
    rw [isNode]
    decide
  have nodes : nodesNamed "PARAM" (.node id { symbol := .nonterminal production.lhs } [word, type,
      name, opening, params, closing, brace, body, last]) = nodesNamed "PARAM" params := by
    rw [nodesNamed_node, if_neg notParam]
    simp [noParam, isWord, isType, isName, isOpening, isClosing, isBrace, isBody, isLast]
  have listed := params_of_list derivesParams (.inl isParams)
    (fun token member => types token (by simp [member])) (namedType openToken)
  obtain ⟨returns, isNamed⟩ :=
    Option.isSome_iff_exists.mp (types typeToken (by simp [typeTokens]) typed)
  simp [signature?, symbolAt?, typeAt?, nameLabel, typeTokens, isNamed, nodes, listed, namedType]

variable {after : LexerState}

theorem signature_of_function (isFunction : Role.ofSymbol (SyntaxTree.symbol tree) = .function)
    {state : LexerState} (outside : Outside state)
    (scans : Scans state (SyntaxTree.tokens tree) after)
    (types : TypesNamed (SyntaxTree.tokens tree)) :
    Mode.outside.Holds after ∧ state.table.entries <+: after.table.entries ∧
      nodesNamed "FUNC" tree = [tree] ∧
      ∃ signature, signature? tree = some signature ∧ signature.HeldBy after.table := by
  obtain ⟨front, body, last, signature, tokens, heading, stops, derives, isBody, single, found⟩ :=
    signature_of_node derivation isFunction types
  rw [tokens] at scans
  obtain ⟨_, header, scans⟩ := scans.split
  obtain ⟨block, behind, reached, same⟩ := outside.header heading header
  -- The body adds entries only.
  obtain ⟨_, scans, ending⟩ := scans.split
  obtain ⟨finished, grown, -⟩ := block.scans scans (innerAll_tokens derives (by rw [isBody]; rfl))
  obtain ⟨outsideAgain, closed, -⟩ := finished.endFunction ending.single stops
  have later : behind.table.entries <+: after.table.entries := by
    rw [closed, ← congrArg (fun environment => environment.symbols.entries) same]
    exact grown.entries
  refine ⟨⟨outsideAgain, fun token found => ?_⟩, reached.entries.trans later, single,
    signature, found, reached.held.later later⟩
  rw [ending.single.window.1] at found
  cases found
  rw [stops]
  decide

theorem signatures_of_functions : ∀ {state : LexerState},
    Role.ofSymbol (SyntaxTree.symbol tree) = .functions → Mode.outside.Holds state →
    Scans state (SyntaxTree.tokens tree) after → TypesNamed (SyntaxTree.tokens tree) →
    Mode.outside.Holds after ∧ state.table.entries <+: after.table.entries ∧
      ∀ node ∈ nodesNamed "FUNC" tree,
        ∃ signature, signature? node = some signature ∧ signature.HeldBy after.table := by
  induction tree using Tree.induct with
  | node id label children ih =>
    intro state role holds scans types
    obtain ⟨production, listed, rfl, is, body, below⟩ :=
      children_of_role derivation role (by simp [Role.bodies])
    rw [nodesNamed_of_role (by rw [is]; decide)]
    rw [SyntaxTree.tokens_node _ _ rfl] at scans types
    rcases mem_pair.mp body with several | none
    · obtain ⟨first, _, rfl, isFunction, others⟩ := map_eq_cons_iff.mp several
      obtain ⟨rest, _, rfl, isFunctions, nothing⟩ := map_eq_cons_iff.mp others
      obtain rfl := map_eq_nil_iff.mp nothing
      simp only [flatMap_cons, flatMap_nil, append_nil] at scans types ⊢
      obtain ⟨middle, one, others⟩ := scans.split
      obtain ⟨between, grown, single, signature, found, held⟩ :=
        signature_of_function (below first (by simp)) isFunction holds.1 one
          fun token member => types token (mem_append_left _ member)
      -- Entries that are held stay held, since later functions only add to the table.
      obtain ⟨there, further, each⟩ := ih rest (by simp) (below rest (by simp)) isFunctions between
        others fun token member => types token (mem_append_right _ member)
      refine ⟨there, grown.trans further, fun node member => ?_⟩
      rw [single] at member
      rcases mem_append.mp member with here | later
      · rw [mem_singleton.mp here]
        exact ⟨signature, found, held.later further⟩
      · exact each node later
    · obtain rfl := map_eq_nil_iff.mp none
      cases scans
      exact ⟨holds, prefix_refl _, by simp⟩

theorem signatures_of_program (start : SyntaxTree.symbol tree = .nonterminal standardGrammar.start)
    (scans : Scans { environment := .empty } (SyntaxTree.tokens tree) after)
    (types : TypesNamed (SyntaxTree.tokens tree)) :
    ∀ node ∈ nodesNamed "FUNC" tree,
      ∃ signature, signature? node = some signature ∧ signature.HeldBy after.table := by
  obtain ⟨id, label, children⟩ := tree
  have role : Role.ofSymbol label.symbol = .program :=
    (congrArg Role.ofSymbol start).trans Role.ofSymbol_start
  obtain ⟨production, listed, rfl, is, roles, below⟩ :=
    children_of_role derivation role (by simp [Role.bodies])
  rw [nodesNamed_of_role (by rw [is]; decide)]
  rw [SyntaxTree.tokens_node _ _ rfl] at scans types
  simp only [Role.bodies, mem_singleton, map_eq_cons_iff, map_eq_nil_iff] at roles
  obtain ⟨functions, _, rfl, isFunctions, word, _, rfl, isWord, body, _, rfl, isBody, last, _, rfl,
    isLast, rfl⟩ := roles
  obtain ⟨wordToken, wordTokens, opens⟩ := word_of_role (below word (by simp)) isWord
  obtain ⟨lastToken, lastTokens, stops⟩ := word_of_role (below last (by simp)) isLast
  -- The functions come first, and the main block behind them adds entries only.
  simp only [flatMap_cons, flatMap_nil, append_nil, wordTokens, lastTokens,
    singleton_append] at scans types
  obtain ⟨first, scanned, scans⟩ := scans.split
  obtain ⟨holds, _, each⟩ := signatures_of_functions (below functions (by simp)) isFunctions
    holds_start scanned fun token member => types token (mem_append_left _ member)
  obtain ⟨second, opening, scans⟩ := scans.uncons
  obtain ⟨block, opened, _⟩ := holds.1.openMain holds.2 opening opens
  obtain ⟨third, inner, scans⟩ := scans.split
  obtain ⟨finished, grown, -⟩ := block.scans inner
    (innerAll_tokens (below body (by simp)) (by rw [isBody]; rfl))
  obtain ⟨_, closed, _⟩ := finished.endMain scans.single stops
  have later : first.table.entries <+: after.table.entries := by
    have grown : second.table.entries <+: third.table.entries := grown.entries
    rw [opened] at grown
    rwa [closed]
  have nodes : [functions, word, body, last].flatMap (nodesNamed "FUNC") =
      nodesNamed "FUNC" functions := by
    simp [nodesNamed_of_level "FUNC" (below word (by simp)) (by rw [isWord]; decide),
      nodesNamed_of_level "FUNC" (below body (by simp)) (by rw [isBody]; decide),
      nodesNamed_of_level "FUNC" (below last (by simp)) (by rw [isLast]; decide)]
  intro node member
  obtain ⟨signature, found, held⟩ := each node (nodes ▸ member)
  exact ⟨signature, found, held.later later⟩

end

end Language

end ThreeAddress

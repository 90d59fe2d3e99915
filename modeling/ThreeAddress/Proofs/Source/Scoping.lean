import ThreeAddress.Proofs.Language.Tokens
import ThreeAddress.Proofs.Source.Reading

/-!
Programs that were read without an error are well scoped.

Every function has an entry of its own with the parameters of its header, and a scope that holds them.
A body refers to variables of its own scope, to functions and to constants only.
-/

namespace ThreeAddress

open List

namespace Source

/-- What a name of a scope may stand for: a variable of the scope, or a function. -/
def NameIn (environment : Environment) (scope : Nat) (handle : Handle) : Prop :=
  ∃ entry, environment.symbols.lookup? handle = some entry ∧
    (entry.BelongsTo scope ∨ entry.BelongsTo 0)

/-- What a literal stands for. -/
def LiteralIn (environment : Environment) (handle : Handle) : Prop :=
  (environment.constants.lookup? handle).isSome = true

/-- A statement that refers to what is known in a scope. -/
abbrev Statement.ScopedIn (environment : Environment) (scope : Nat) (statement : Statement) : Prop :=
  statement.Within (NameIn environment scope) (LiteralIn environment)

/-- A function that has an entry and a scope. -/
structure Function.ScopedIn (environment : Environment) (scope : Nat) (function : Function) :
    Prop where
  entry : ∃ entry, environment.symbols.lookup? function.handle = some (.func entry) ∧
    entry.params = function.params
  distinct : function.params.Nodup
  owned : ∀ param ∈ function.params, ∃ entry,
    environment.symbols.lookup? param = some (.var entry) ∧ (Entry.var entry).BelongsTo scope
  body : function.body.ScopedIn environment scope

/-- Functions with their scopes, which are all that the tables know. -/
structure FunctionsIn (environment : Environment) (functions : List (Nat × Function)) : Prop where
  each : ∀ held ∈ functions, held.2.ScopedIn environment held.1
  scopes : (functions.map Prod.fst).Nodup
  handles : (functions.map fun held => held.2.handle).Nodup
  covered : ∀ {handle entry}, environment.symbols.lookup? handle = some (.func entry) →
    ∃ held ∈ functions, held.2.handle = handle

/-- A well-scoped program. -/
structure Program.ScopedIn (environment : Environment) (program : Program) : Prop where
  sound : environment.symbols.Sound
  functions : ∃ scopes : List (Nat × Function), scopes.map Prod.snd = program.functions ∧
    FunctionsIn environment scopes ∧
    ∃ scope, scope ∉ scopes.map Prod.fst ∧ program.main.ScopedIn environment scope

section Weakening

variable {names literals others further : Handle → Prop}
  (weaker : ∀ handle, names handle → others handle)
  (looser : ∀ handle, literals handle → further handle)
include weaker looser

theorem Expression.Within.mono {expression : Expression}
    (within : expression.Within names literals) : expression.Within others further := by
  induction expression with
  | name handle => exact weaker handle within
  | literal handle => exact looser handle within
  | binary operation left right ihLeft ihRight => exact ⟨ihLeft within.1, ihRight within.2⟩

theorem Call.Within.mono {call : Call} (within : call.Within names literals) :
    call.Within others further :=
  ⟨weaker _ within.1, fun argument member => (within.2 argument member).mono weaker looser⟩

theorem Statement.Within.mono {statement : Statement}
    (within : statement.Within names literals) : statement.Within others further := by
  induction statement with
  | skip => trivial
  | assign target value => exact ⟨weaker _ within.1, within.2.mono weaker looser⟩
  | assignCall target source => exact ⟨weaker _ within.1, Call.Within.mono weaker looser within.2⟩
  | call source => exact Call.Within.mono weaker looser within
  | ret value => exact Expression.Within.mono weaker looser within
  | seq first second ihFirst ihSecond => exact ⟨ihFirst within.1, ihSecond within.2⟩
  | cond test yes no ihYes ihNo =>
    exact ⟨within.1.mono weaker looser, ihYes within.2.1, ihNo within.2.2⟩
  | loop test body ih => exact ⟨within.1.mono weaker looser, ih within.2⟩

end Weakening

section Growth

variable {before after : Environment}
  (entries : before.symbols.entries <+: after.symbols.entries)
  (constants : before.constants.constants <+: after.constants.constants)
include entries constants

theorem Statement.ScopedIn.later {scope : Nat} {statement : Statement}
    (scopedIn : statement.ScopedIn before scope) : statement.ScopedIn after scope := by
  refine Statement.Within.mono ?_ ?_ scopedIn
  · rintro handle ⟨entry, found, inside⟩
    exact ⟨entry, SymbolTable.lookup?_of_prefix entries found, inside⟩
  · intro handle found
    obtain ⟨constant, known⟩ := Option.isSome_iff_exists.mp found
    exact Option.isSome_iff_exists.mpr ⟨constant, ConstantTable.lookup?_of_prefix constants known⟩

theorem Function.ScopedIn.later {scope : Nat} {function : Function}
    (scopedIn : function.ScopedIn before scope) : function.ScopedIn after scope where
  entry := by
    obtain ⟨entry, found, same⟩ := scopedIn.entry
    exact ⟨entry, SymbolTable.lookup?_of_prefix entries found, same⟩
  distinct := scopedIn.distinct
  owned param member := by
    obtain ⟨entry, found, inside⟩ := scopedIn.owned param member
    exact ⟨entry, SymbolTable.lookup?_of_prefix entries found, inside⟩
  body := scopedIn.body.later entries constants

variable {functions : List (Nat × Function)} (functionsIn : FunctionsIn before functions)
include functionsIn

theorem FunctionsIn.add {function : Function}
    (bounded : ∀ held ∈ functions, held.1 < before.symbols.scopeCount)
    (handle : function.handle = (before.symbols.size : Nat))
    (scopedIn : function.ScopedIn after before.symbols.scopeCount)
    (single : ∀ {handle entry}, after.symbols.lookup? handle = some (.func entry) →
      handle = (before.symbols.size : Nat) ∨ before.symbols.lookup? handle = some (.func entry)) :
    FunctionsIn after (functions ++ [(before.symbols.scopeCount, function)]) := by
  constructor
  · intro held member
    rcases mem_append.mp member with old | new
    · exact (functionsIn.each held old).later entries constants
    · rw [mem_singleton.mp new]
      exact scopedIn
  · rw [map_append, nodup_append]
    refine ⟨functionsIn.scopes, nodup_singleton _, ?_⟩
    intro scope old other new
    obtain ⟨held, member, rfl⟩ := mem_map.mp old
    rw [mem_singleton.mp new]
    exact Nat.ne_of_lt (bounded held member)
  · rw [map_append, nodup_append]
    refine ⟨functionsIn.handles, nodup_singleton _, ?_⟩
    intro earlier old other new
    obtain ⟨held, member, rfl⟩ := mem_map.mp old
    obtain ⟨entry, found, _⟩ := (functionsIn.each held member).entry
    rw [mem_singleton.mp new]
    show held.2.handle ≠ function.handle
    rw [handle]
    exact Int.ne_of_lt (SymbolTable.lt_size_of_lookup? found)
  · intro other entry found
    rcases single found with rfl | known
    · exact ⟨_, mem_append_right _ (mem_singleton_self _), handle⟩
    · obtain ⟨held, member, same⟩ := functionsIn.covered known
      exact ⟨held, mem_append_left _ member, same⟩

theorem FunctionsIn.later
    (old : ∀ {handle entry}, after.symbols.lookup? handle = some (.func entry) →
      before.symbols.lookup? handle = some (.func entry)) :
    FunctionsIn after functions where
  each held member := (functionsIn.each held member).later entries constants
  scopes := functionsIn.scopes
  handles := functionsIn.handles
  covered found := functionsIn.covered (old found)

end Growth

end Source

namespace Language

open Source

/-- What one of several derivations leaves, with its tokens. -/
def Left (trees : List SyntaxTree) (role : Role) (tokens : List Token)
    (forest : List SyntaxTree) : Prop :=
  ∃ tree ∈ trees, standardGrammar.IsDerivation tree ∧ Role.ofSymbol (SyntaxTree.symbol tree) = role ∧
    SyntaxTree.tokens tree = tokens ∧ normalizer.forest [tree] = forest

namespace Left

variable {trees : List SyntaxTree} {role : Role} {tokens : List Token} {forest : List SyntaxTree}

section

variable (left : Left trees role tokens forest)
include left

theorem form {names literals : Handle → Prop}
    (fits : ∀ token ∈ tokens, token.Fits names literals) :
    Form names literals role tokens forest := by
  obtain ⟨tree, _, derivation, rfl, rfl, rfl⟩ := left
  exact form_of_derivation derivation fits

/-- What is left has its form, whatever the names and the literals stand for. -/
theorem free :
    Form (fun _ => True) (fun _ => True) role tokens forest :=
  left.form fun _ _ => ⟨fun _ => trivial, fun _ => trivial⟩

theorem inner {depth next : Nat}
    (leads : role.inner depth = some next) :
    Role.innerAll depth (tokens.map fun token => Role.ofCategory token.category) = some next := by
  obtain ⟨tree, _, derivation, rfl, rfl, rfl⟩ := left
  exact innerAll_tokens derivation leads

theorem listed {typed next : Bool}
    (leads : role.listed typed = some next) :
    (tokens.map fun token => Role.ofCategory token.category).foldlM
      (fun typed role => role.listed typed) typed = some next := by
  obtain ⟨tree, _, derivation, rfl, rfl, rfl⟩ := left
  exact listedAll_tokens derivation leads

end

theorem word {category : Int} (left : Left trees (.word category) tokens forest) :
    ∃ token tree, tokens = [token] ∧ forest = [tree] ∧ IsLeaf token tree ∧
      token.category = category := by
  obtain ⟨token, tree, rfl, rfl, leaf, role, _⟩ := left.free
  exact ⟨token, tree, rfl, rfl, leaf, Role.eq_of_word role⟩

theorem name (left : Left trees .name tokens forest) :
    ∃ token tree, tokens = [token] ∧ forest = [tree] ∧ IsLeaf token tree ∧
      token.category = identifier := by
  obtain ⟨token, tree, rfl, rfl, leaf, role, _⟩ := left.free
  exact ⟨token, tree, rfl, rfl, leaf, Role.eq_identifier role⟩

theorem type (left : Left trees .type tokens forest) :
    ∃ token tree, tokens = [token] ∧ forest = [tree] ∧ IsLeaf token tree ∧
      isTypeWord token.category = true := by
  obtain ⟨token, tree, rfl, rfl, leaf, role⟩ := left.free
  exact ⟨token, tree, rfl, rfl, leaf, Role.isTypeWord_of_role role⟩

end Left

variable {children : List SyntaxTree} {id : Nat}

theorem left_children {label : Label} {role : Role}
    (derivation : standardGrammar.IsDerivation (.node id label children))
    (same : Role.ofSymbol label.symbol = role) (inner : role.bodies ≠ []) :
    ∃ body ∈ role.bodies, ∃ name, label = { symbol := .nonterminal name } ∧
      (∀ entry ∈ Role.named, entry.2 = role → name = entry.1) ∧
      normalizer.isWrapper (.nonterminal name) = role.isWrapper ∧
      Side (Left children) body (SyntaxTree.tokens (.node id label children))
        (normalizer.forest children) := by
  obtain ⟨production, member, rfl, rfl, body, below⟩ := children_of_role derivation same inner
  have fitting := Role.fits member
  refine ⟨_, body, production.lhs, rfl, fitting.named, fitting.wrapper, ?_⟩
  rw [SyntaxTree.tokens_node _ _ rfl]
  exact side_of_children fun child inside => ⟨child, inside, below child inside, rfl, rfl, rfl⟩

variable {trees forest : List SyntaxTree} {tokens : List Token}

/-- The words of a block lead through it, and its statements refer to what is known there. -/
theorem InBlock.statements {scope : Nat} {function : Option Handle} {state after : LexerState}
    (block : InBlock scope function 0 state) (left : Left trees .statements tokens forest)
    (scans : Scans state tokens after) :
    InBlock scope function 0 after ∧ state.environment.Grown after.environment ∧
      Form (NameIn after.environment scope) (LiteralIn after.environment) .statements tokens
        forest := by
  obtain ⟨reached, grown, known⟩ := block.scans scans (left.inner rfl)
  exact ⟨reached, grown, left.form fun token member => ⟨(known token member).name,
    (known token member).literal⟩⟩

/-- A state between functions. -/
structure Between (functions : List (Nat × Function)) (state : LexerState) : Prop where
  outside : Outside state
  unopened : ∀ token, state.previous = some token → token.category ≠ functionWord
  functionsIn : FunctionsIn state.environment functions
  bounded : ∀ held ∈ functions, held.1 < state.table.scopeCount

/-- The header of a function, up to the brace that opens its body. -/
structure Header (tokens : List Token) (forest : List SyntaxTree) (signature : Signature) : Prop where
  heading : Heading tokens signature
  /-- A block behind it is the body. -/
  body : ∀ rest, Statement.readBlock? (forest ++ rest) = Statement.readStatements? rest
  read : Function.readParams? forest = some (signature.params.map Prod.fst)
  third : ∃ tree, forest[2]? = some tree ∧ tree.value.handle = signature.handle
  first : ∃ tree second rest, forest = tree :: second :: rest ∧
    tree.value.symbol.hasCategory openParen = false

/-- The symbols before the body of a function leave its header. -/
theorem header_of_side {roles : List Role} (side : Side (Left children)
      ([.word 3, .type, .name, .word 21, .params, .word 22, .word 23] ++ roles) tokens forest) :
    ∃ front back trees rest signature, tokens = front ++ back ∧ forest = trees ++ rest ∧
      Header front trees signature ∧ Side (Left children) roles back rest := by
  obtain ⟨_, _, _, _, rfl, rfl, left, side⟩ := side
  obtain ⟨word, opener, rfl, rfl, isOpener, opens⟩ := left.word
  obtain ⟨_, _, _, _, rfl, rfl, left, side⟩ := side
  obtain ⟨typeToken, type, rfl, rfl, isType, typed⟩ := left.type
  obtain ⟨_, _, _, _, rfl, rfl, left, side⟩ := side
  obtain ⟨token, name, rfl, rfl, isName, named⟩ := left.name
  obtain ⟨_, _, _, _, rfl, rfl, left, side⟩ := side
  obtain ⟨parenToken, opening, rfl, rfl, isOpening, starts⟩ := left.word
  obtain ⟨paramTokens, _, paramTrees, _, rfl, rfl, params, side⟩ := side
  obtain ⟨_, _, _, _, rfl, rfl, left, side⟩ := side
  obtain ⟨closeToken, closing, rfl, rfl, isClosing, closes⟩ := left.word
  obtain ⟨_, back, _, rest, rfl, rfl, left, side⟩ := side
  obtain ⟨braceToken, brace, rfl, rfl, isBrace, braces⟩ := left.word
  refine ⟨[word, typeToken, token, parenToken] ++ paramTokens ++ [closeToken, braceToken], back,
    [opener, type, name, opening] ++ paramTrees ++ [closing, brace], rest,
    ⟨token.handle, namedType typeToken, typedNames (namedType parenToken) paramTokens⟩,
    by simp, by simp, ?_, side⟩
  obtain ⟨clear, read⟩ := params.free
  constructor
  case heading =>
    exact ⟨word, typeToken, token, parenToken, paramTokens, closeToken, braceToken, rfl, opens, typed,
      named, starts, closes, braces, params.listed rfl, rfl⟩
  case body =>
    intro rest
    have isOpen : brace.value.symbol.hasCategory openBrace = true := isBrace.has braces
    have notType : type.value.symbol.hasCategory openBrace = false := by
      refine isType.lacks rfl fun same => ?_
      rw [same] at typed
      cases typed
    -- Nothing before it is a brace.
    have before : ∀ tree ∈ [opener, type, name, opening] ++ paramTrees ++ [closing],
        tree.value.symbol.hasCategory openBrace = false := by
      intro tree member
      simp only [mem_append, mem_cons, not_mem_nil, or_false] at member
      rcases member with ((rfl | rfl | rfl | rfl) | inside) | rfl
      · exact isOpener.lacks opens (by decide)
      · exact notType
      · exact isName.lacks named (by decide)
      · exact isOpening.lacks starts (by decide)
      · exact clear tree inside
      · exact isClosing.lacks closes (by decide)
    have split : [opener, type, name, opening] ++ paramTrees ++ [closing, brace] ++ rest =
        ([opener, type, name, opening] ++ paramTrees ++ [closing]) ++ brace :: rest := by simp
    rw [split, readBlock?_append before, Statement.readBlock?, if_pos isOpen]
  case read =>
    have front := @readParams?_none [opener, type, name, opening] (by
      simp [isOpener.ne_nonterminal, isType.ne_nonterminal, isName.ne_nonterminal,
        isOpening.ne_nonterminal])
    have behind := @readParams?_none [closing, brace] (by
      simp [isClosing.ne_nonterminal, isBrace.ne_nonterminal])
    rw [map_typedNames]
    simpa using readParams?_append (readParams?_append front read) behind
  case third => exact ⟨name, rfl, isName.handle⟩
  case first => exact ⟨opener, type, _, rfl, isOpener.lacks opens (by decide)⟩

theorem Header.read_function {body : List SyntaxTree} {signature : Signature} {last : Token}
    {stop : SyntaxTree} {statement : Statement} {label : Label}
    (header : Header tokens trees signature)
    (nodes : ∀ tree ∈ body, ∃ name ∈ statementNames, tree.value.symbol = .nonterminal name)
    (isStop : IsLeaf last stop)
    (read : Statement.readStatements? (body ++ [stop]) = some statement) :
    Function.read? (.node id label (trees ++ (body ++ [stop]))) =
      some ⟨signature.handle, signature.params.map Prod.fst, statement⟩ := by
  -- The parameters are those of the header, since no statement is one.
  have none : Function.readParams? (body ++ [stop]) = some [] := by
    refine readParams?_none fun tree member => ?_
    rcases mem_append.mp member with inside | last
    · obtain ⟨name, listed, symbol⟩ := nodes tree inside
      rw [symbol]
      rintro same
      cases same
      exact absurd listed (by decide)
    · rw [mem_singleton.mp last]
      exact isStop.ne_nonterminal _
  have all := readParams?_append header.read none
  obtain ⟨tree, third, refers⟩ := header.third
  have found : (trees ++ (body ++ [stop]))[2]? = some tree := by
    rw [List.getElem?_append_left (List.getElem?_eq_some_iff.mp third).1, third]
  simp only [Function.read?, Tree.children_node, found, all, header.body, read,
    Option.bind_eq_bind, Option.bind_some, append_nil, refers]
  rfl

/-- A header and a body that were read join the functions before them. -/
theorem Between.body {functions : List (Nat × Function)} {state after : LexerState}
    (between : Between functions state) (id : Nat) (side : Side (Left children)
      [.word 3, .type, .name, .word 21, .params, .word 22, .word 23, .statements, .word 24]
      tokens forest) (scans : Scans state tokens after) :
    ∃ function tree, normalizer.close id { symbol := .nonterminal "FUNC" } forest = [tree] ∧
      tree.value.symbol = .nonterminal "FUNC" ∧ Function.read? tree = some function ∧
      Between (functions ++ [(state.table.scopeCount, function)]) after := by
  obtain ⟨front, _, trees, _, signature, rfl, rfl, header, side⟩ := header_of_side side
  obtain ⟨bodyTokens, _, bodyTrees, _, rfl, rfl, body, side⟩ := side
  obtain ⟨_, _, _, _, rfl, rfl, left, rfl, rfl⟩ := side
  obtain ⟨last, stop, rfl, rfl, isStop, stops⟩ := left.word
  obtain ⟨first, scans, further⟩ := scans.split
  obtain ⟨second, inner, ending⟩ := further.split
  obtain ⟨block, behind, listed, same⟩ := between.outside.header header.heading scans
  obtain ⟨finished, grown, nodes, statement, within, read, _⟩ := block.statements body inner
  obtain ⟨outside, closed, constants⟩ := finished.endFunction ending.single stops
  have entries : after.table.entries = second.table.entries := by rw [closed]
  -- What was known behind the header is known behind the function.
  have table : behind.table.entries <+: after.table.entries := by
    rw [entries, ← congrArg (fun environment => environment.symbols.entries) same]
    exact grown.entries
  have pool : state.environment.constants.constants <+: after.environment.constants.constants := by
    rw [constants, ← listed.constants, ← same]
    exact grown.constants
  have isClose : stop.value.symbol.hasCategory closeBrace = true := isStop.has stops
  have scopedIn : (Function.mk signature.handle (signature.params.map Prod.fst) statement).ScopedIn
      after.environment state.table.scopeCount :=
    { entry := by
        obtain ⟨entry, found, _, same⟩ := listed.entry
        exact ⟨entry, listed.own ▸ SymbolTable.lookup?_of_prefix table found, same⟩
      distinct := listed.distinct
      owned := fun param member => by
        obtain ⟨held, inside, rfl⟩ := mem_map.mp member
        obtain ⟨entry, found, belongs, _⟩ := listed.owned held inside
        exact ⟨entry, SymbolTable.lookup?_of_prefix table found, belongs⟩
      body := Statement.ScopedIn.later (by rw [entries]) (by rw [constants]) within }
  have opened : after.table.scopeCount = state.table.scopeCount + 1 := by
    rw [closed]
    refine grown.scopes.trans ?_
    rw [same]
    exact listed.scopes
  have joined := between.functionsIn.add (listed.entries.trans table) pool between.bounded listed.own
    scopedIn (fun found => by
      rw [SymbolTable.lookup?_congr entries] at found
      have earlier := grown.functions found
      rw [same] at earlier
      exact listed.single earlier)
  obtain ⟨tree, second, rest, shape, notParen⟩ := header.first
  refine ⟨_, .node id { symbol := .nonterminal "FUNC" } (trees ++ (bodyTrees ++ [stop])), ?_,
    rfl, ?_, outside, ?_, joined, ?_⟩
  · rw [shape]
    exact close_stays id _ notParen
  · exact header.read_function nodes isStop (read stop [] isClose)
  · intro token found
    rw [ending.single.window.1] at found
    cases found
    rw [stops]
    decide
  · intro held member
    rcases mem_append.mp member with old | new
    · have earlier := between.bounded held old
      omega
    · rw [mem_singleton.mp new]
      omega

theorem Between.function {functions : List (Nat × Function)} {state after : LexerState}
    (between : Between functions state) (left : Left trees .function tokens forest)
    (scans : Scans state tokens after) :
    ∃ function tree, forest = [tree] ∧ tree.value.symbol = .nonterminal "FUNC" ∧
      Function.read? tree = some function ∧
      Between (functions ++ [(state.table.scopeCount, function)]) after := by
  obtain ⟨⟨id, label, children⟩, _, derivation, role, rfl, rfl⟩ := left
  obtain ⟨body, member, name, rfl, named, wrapper, side⟩ :=
    left_children derivation role (by simp [Role.bodies])
  obtain rfl := named ("FUNC", .function) (by decide) rfl
  cases mem_singleton.mp member
  rw [normalizer.forest_plain id children wrapper rfl]
  exact between.body id side scans

theorem Between.functions {tree : SyntaxTree} (derivation : standardGrammar.IsDerivation tree) :
    ∀ {functions : List (Nat × Function)} {state after : LexerState},
    Role.ofSymbol (SyntaxTree.symbol tree) = .functions → Between functions state →
    Scans state (SyntaxTree.tokens tree) after →
    ∃ more : List (Nat × Function), Between (functions ++ more) after ∧
      (∀ node ∈ normalizer.forest [tree], node.value.symbol = .nonterminal "FUNC") ∧
      ∀ rest program, Program.readParts? rest = some program →
        Program.readParts? (normalizer.forest [tree] ++ rest) =
          some { program with functions := more.map Prod.snd ++ program.functions } := by
  induction tree using Tree.induct with
  | node id label children ih =>
    intro functions state after role between scans
    obtain ⟨body, member, name, rfl, _, wrapper, side⟩ :=
      left_children derivation role (by simp [Role.bodies])
    rw [normalizer.forest_wrapper id children wrapper]
    rcases mem_pair.mp member with rfl | rfl
    · obtain ⟨_, _, _, _, tokens, forest, left, side⟩ := side
      obtain ⟨_, _, _, _, rfl, rfl, others, rfl, rfl⟩ := side
      obtain ⟨below, inside, derived, isFunctions, rfl, rfl⟩ := others
      rw [tokens, append_nil] at scans
      obtain ⟨middle, one, further⟩ := scans.split
      obtain ⟨function, tree, rfl, symbol, read, reached⟩ := between.function left one
      obtain ⟨more, there, nodes, parts⟩ := ih below inside derived isFunctions reached further
      refine ⟨_ :: more, by simpa using there, ?_, ?_⟩
      · intro node found
        rw [forest, append_nil] at found
        rcases mem_append.mp found with first | later
        · rw [mem_singleton.mp first]
          exact symbol
        · exact nodes node later
      · intro rest program known
        have notStart : tree.value.symbol.hasCategory startWord = false := by
          rw [symbol]
          rfl
        rw [forest, append_nil, append_assoc, singleton_append, Program.readParts?,
          if_neg (by simp [notStart]), if_pos symbol, read, parts rest program known]
        rfl
    · obtain ⟨tokens, forest⟩ := side
      rw [tokens] at scans
      cases scans
      rw [forest]
      exact ⟨[], by simpa using between, by simp, fun rest program known => by simpa using known⟩

/-- A root that does not start with a parenthesis stays above what its children leave. -/
theorem normalize_node {name : Text} (plain : normalizer.isWrapper (.nonterminal name) = false)
    (several : 2 ≤ (normalizer.forest children).length)
    (notParen : ∀ tree, (normalizer.forest children).head? = some tree →
      tree.value.symbol.hasCategory openParen = false) :
    Compiler.normalize (.node id { symbol := .nonterminal name } children) =
      .node id { symbol := .nonterminal name } (normalizer.forest children) := by
  have root := @Normalizer.normalize_root normalizer { symbol := .nonterminal name } id children
    plain several
  rw [normalizer.forest_plain id children plain rfl] at root
  match forest : normalizer.forest children with
  | [] => simp [forest] at several
  | [_] => simp [forest] at several
  | first :: second :: rest =>
    rw [forest, close_stays id _ (notParen first (by rw [forest]; rfl))] at root
    exact (singleton_inj.mp root).symm

theorem read_root {front inner : List SyntaxTree} {opener closer : SyntaxTree} {token : Token}
    {functions : List Function} {main : Statement}
    (forest : normalizer.forest children = front ++ opener :: (inner ++ [closer]))
    (nodes : ∀ node ∈ front, node.value.symbol = .nonterminal "FUNC")
    (isOpener : IsLeaf token opener) (opens : token.category = startWord)
    (parts : ∀ rest program, Program.readParts? rest = some program →
      Program.readParts? (front ++ rest) =
        some { program with functions := functions ++ program.functions })
    (read : Program.readMain? (inner ++ [closer]) = some main) :
    Program.read? (Compiler.normalize (.node id { symbol := .nonterminal "SFAA" } children)) =
      some { functions, main } := by
  have isStart : opener.value.symbol.hasCategory startWord = true := isOpener.has opens
  -- Neither a function nor the opening word is a parenthesis.
  have notParen : ∀ tree, (normalizer.forest children).head? = some tree →
      tree.value.symbol.hasCategory openParen = false := by
    intro tree first
    rw [forest] at first
    cases front with
    | nil =>
      cases first
      exact isOpener.lacks opens (by decide)
    | cons node rest =>
      cases first
      rw [nodes tree (by simp)]
      rfl
  have isProgram : Symbol.nonterminal "SFAA" = .nonterminal programName := rfl
  have several : 2 ≤ (normalizer.forest children).length := by
    rw [forest, length_append, length_cons, length_append, length_singleton]
    omega
  rw [normalize_node rfl several notParen, Program.read?, Tree.value_node, if_pos isProgram,
    Tree.children_node, forest, parts _ { functions := [], main }]
  · simp
  · rw [Program.readParts?, if_pos isStart, read]
    rfl

theorem program_scoped {tree : SyntaxTree} {final : LexerState}
    (derivation : standardGrammar.IsDerivation tree)
    (start : SyntaxTree.symbol tree = .nonterminal standardGrammar.start)
    (scans : Scans { environment := .empty } (SyntaxTree.tokens tree) final) :
    ∃ program, Program.read? (Compiler.normalize tree) = some program ∧
      program.ScopedIn final.environment := by
  obtain ⟨id, label, children⟩ := tree
  have role : Role.ofSymbol label.symbol = .program :=
    (congrArg Role.ofSymbol start).trans Role.ofSymbol_start
  obtain ⟨body, member, name, rfl, named, wrapper, side⟩ :=
    left_children derivation role (by simp [Role.bodies])
  obtain rfl := named ("SFAA", .program) (by decide) rfl
  cases mem_singleton.mp member
  obtain ⟨_, _, _, _, tokens, forest, functions, side⟩ := side
  obtain ⟨functionsTree, _, derived, isFunctions, rfl, rfl⟩ := functions
  obtain ⟨_, _, _, _, rfl, rfl, left, side⟩ := side
  obtain ⟨startToken, opener, rfl, rfl, isOpener, opens⟩ := left.word
  obtain ⟨_, _, _, _, rfl, rfl, statements, side⟩ := side
  obtain ⟨_, _, _, _, rfl, rfl, left, rfl, rfl⟩ := side
  obtain ⟨endToken, closer, rfl, rfl, isCloser, closes⟩ := left.word
  rw [tokens, singleton_append, append_nil] at scans
  -- The functions come first, and then the main block in a scope of its own.
  have nothing : Between [] { environment := .empty } :=
    { outside := ⟨SymbolTable.sound_empty, rfl, rfl, rfl⟩
      unopened := by simp
      functionsIn := ⟨by simp, by simp, by simp, fun found => by
        simp [Environment.empty, SymbolTable.empty, SymbolTable.lookup?] at found
        split at found <;> simp at found⟩
      bounded := by simp }
  obtain ⟨first, scanned, scans⟩ := scans.split
  obtain ⟨more, between, nodes, parts⟩ := Between.functions derived isFunctions nothing scanned
  obtain ⟨second, opening, scans⟩ := scans.uncons
  obtain ⟨block, opened, constants⟩ := between.outside.openMain between.unopened opening opens
  have entries : second.table.entries = first.table.entries := by
    rw [opened]
    rfl
  obtain ⟨third, inner, scans⟩ := scans.split
  obtain ⟨finished, grown, _, main, within, _, read⟩ := block.statements statements inner
  obtain ⟨outside, closed, pool⟩ := finished.endMain scans.single closes
  have same : final.table.entries = third.table.entries := by rw [closed]
  have table : first.table.entries <+: final.table.entries := by
    rw [same, ← entries]
    exact grown.entries
  have constantPool : first.environment.constants.constants <+:
      final.environment.constants.constants := by
    rw [pool, ← constants]
    exact grown.constants
  have isEnd : closer.value.symbol.hasCategory endWord = true := isCloser.has closes
  refine ⟨{ functions := more.map Prod.snd, main }, ?_, outside.sound, more, rfl, ?_,
    first.table.scopeCount, ?_, ?_⟩
  · exact read_root forest nodes isOpener opens parts (read closer isEnd)
  · exact between.functionsIn.later table constantPool fun found => by
      rw [SymbolTable.lookup?_congr same] at found
      have earlier := grown.functions found
      rwa [SymbolTable.lookup?_congr entries] at earlier
  · intro member
    obtain ⟨held, inside, bound⟩ := mem_map.mp member
    exact absurd (between.bounded held inside) (by omega)
  · exact Statement.ScopedIn.later (by rw [same]) (by rw [pool]) within

end Language

end ThreeAddress

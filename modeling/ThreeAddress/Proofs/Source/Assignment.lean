import ThreeAddress.Proofs.Source.Precedence
import ThreeAddress.Proofs.Source.Scoping

/-!
The derivation of a program that assigns an expression.

Its main block declares variables, and then it assigns to one of them.
-/

namespace ThreeAddress

namespace Language

open Source

theorem statement_productions :
    (Produces "SFAA" [.nonterminal "FUNCS", .terminal "start" startWord, .nonterminal "STMTS",
      .terminal "end" endWord] ∧ Produces "FUNCS" []) ∧
    (Produces "STMTS" [.nonterminal "STMT", .nonterminal "STMTS"] ∧ Produces "STMTS" [] ∧
      Produces "STMT" [.nonterminal "DECL"] ∧ Produces "STMT" [.nonterminal "ASSIGN"]) ∧
    (Produces "DECL" [.terminal "var" variableWord, .nonterminal "TYPE",
      .terminal "id" identifier, .nonterminal "INIT", .terminal ";" 26] ∧ Produces "INIT" [] ∧
      ∀ category ∈ [17, 18, 19, 20],
        Produces "TYPE" [.terminal (registry.nameOf category) category]) ∧
    Produces "ASSIGN" [.terminal "id" identifier, .terminal "=" 27, .nonterminal "RHS",
      .terminal ";" 26] ∧ Produces "RHS" [.nonterminal "EXPR"] := by
  decide +kernel

/-- Nodes that are one node, which reads as a statement. -/
def StatesAs (statement : Statement) (forest : List SyntaxTree) : Prop :=
  ∃ tree, forest = [tree] ∧ (∃ name, tree.value.symbol = .nonterminal name) ∧
    Statement.read? tree = some statement

/-- Nodes that read as the statements of a main block. -/
def StatesAll (statement : Statement) (forest : List SyntaxTree) : Prop :=
  ∀ closer, closer.value.symbol.hasCategory endWord = true →
    Program.readMain? (forest ++ [closer]) = some statement

/-- The tokens of a declaration without a first value. -/
def IsDeclaration (tokens : List Token) : Prop :=
  ∃ word type name stop : Token, tokens = [word, type, name, stop] ∧
    word.category = variableWord ∧ isTypeWord type.category = true ∧
    name.category = identifier ∧ stop.category = 26

variable {tokens : List Token}

theorem leaves_declaration (declares : IsDeclaration tokens) :
    Leaves (.nonterminal "STMT") tokens (StatesAs .skip) := by
  obtain ⟨word, type, name, stop, rfl, isWord, isType, isName, isStop⟩ := declares
  obtain ⟨produces, noValue, types⟩ := statement_productions.2.2.1
  have written : Produces "TYPE" [.terminal (registry.nameOf type.category) type.category] := by
    have listed : ∀ category : Int, isTypeWord category = true → category ∈ [17, 18, 19, 20] := by
      intro category is
      have range : 17 ≤ category ∧ category ≤ 20 := by simpa [isTypeWord] using is
      simp only [List.mem_cons, List.not_mem_nil, or_false]
      omega
    exact types _ (listed _ isType)
  have ofType := leaves_plain written (by decide)
    ((leaves_word (registry.nameOf type.category) rfl).cons .nil)
  have ofInit := leaves_wrapper noValue (by decide) .nil
  have body := (leaves_word "var" isWord).cons (ofType.cons ((leaves_word "id" isName).cons
    (ofInit.cons ((leaves_word ";" isStop).cons .nil))))
  have statement := leaves_wrapper statement_productions.2.1.2.2.1 (by decide)
    ((leaves_plain produces (by decide) body).cons .nil)
  refine statement.mono ?_
  rintro _ ⟨_, _, rfl, ⟨number, _, ⟨_, _, rfl, ⟨first, rfl, isFirst⟩, _, _, rfl,
    ⟨inner, _, ⟨_, _, rfl, ⟨second, rfl, isSecond⟩, rfl⟩, rfl⟩, _, _, rfl, ⟨third, rfl, isThird⟩,
    _, _, rfl, rfl, _, _, rfl, ⟨last, rfl, isLast⟩, rfl⟩, rfl⟩, rfl⟩
  -- The node of the type gives way to its only word, and that of the first value vanishes.
  have notParen := isFirst.lacks isWord (by decide : _ ≠ openParen)
  have closed : normalizer.close number { symbol := .nonterminal "DECL" }
      [first, second, third, last] = [.node number _ _] := close_stays number _ notParen
  exact ⟨_, congrArg (· ++ []) closed, ⟨"DECL", rfl⟩, rfl⟩

theorem leaves_assignment {target mark stop : Token} {value : Expression}
    (isTarget : target.category = identifier) (isMark : mark.category = 27)
    (isStop : stop.category = 26) (phrase : Phrase 0 tokens value) :
    Leaves (.nonterminal "STMT") (target :: mark :: (tokens ++ [stop]))
      (StatesAs (.assign target.handle value)) := by
  obtain ⟨produces, source⟩ := statement_productions.2.2.2
  -- The right side gives way to the expression, which is its only child.
  have ofSource := leaves_plain source (by decide) (phrase.leaves.1.cons .nil)
  have body := (leaves_word "id" isTarget).cons ((leaves_word "=" isMark).cons
    (ofSource.cons ((leaves_word ";" isStop).cons .nil)))
  have statement := leaves_wrapper statement_productions.2.1.2.2.2 (by decide)
    ((leaves_plain produces (by decide) body).cons .nil)
  rw [List.append_nil, List.append_nil] at statement
  refine statement.mono ?_
  rintro _ ⟨_, _, rfl, ⟨number, _, ⟨_, _, rfl, ⟨first, rfl, isFirst⟩, _, _, rfl,
    ⟨second, rfl, isSecond⟩, _, _, rfl, ⟨inner, _, ⟨_, _, rfl, ⟨tree, rfl, operand, read⟩, rfl⟩, rfl⟩,
    _, _, rfl, ⟨last, rfl, isLast⟩, rfl⟩, rfl⟩, rfl⟩
  have notParen := isFirst.lacks isTarget (by decide : _ ≠ openParen)
  have closed : normalizer.close number { symbol := .nonterminal "ASSIGN" }
      [first, second, tree, last] = [.node number _ _] := close_stays number _ notParen
  refine ⟨_, congrArg (· ++ []) closed, ⟨"ASSIGN", rfl⟩, ?_⟩
  have simple : ("ASSIGN" : Text) ≠ "IF" ∧ ("ASSIGN" : Text) ≠ "LOOP" := by decide
  simpa [Statement.read?, simple, isFirst.handle] using
    @readSimple?_assign tree value number first second last operand read

variable {others : List Token} {rest : Statement}

theorem leaves_statement {first : Statement}
    (one : Leaves (.nonterminal "STMT") tokens (StatesAs first))
    (more : Leaves (.nonterminal "STMTS") others (StatesAll rest)) :
    Leaves (.nonterminal "STMTS") (tokens ++ others) (StatesAll (.seq first rest)) := by
  have statements := leaves_wrapper statement_productions.2.1.1 (by decide) (one.cons (more.cons .nil))
  rw [List.append_nil] at statements
  refine statements.mono ?_
  rintro _ ⟨_, _, rfl, ⟨tree, rfl, ⟨name, symbol⟩, read⟩, back, _, rfl, states, rfl⟩ closer closes
  have notEnd : tree.value.symbol.hasCategory endWord = false := by
    rw [symbol]
    rfl
  simp [Program.readMain?, notEnd, read, states closer closes]

theorem leaves_noStatement : Leaves (.nonterminal "STMTS") [] (StatesAll .skip) := by
  refine (leaves_wrapper statement_productions.2.1.2.1 (by decide) .nil).mono ?_
  rintro _ rfl closer closes
  simp [Program.readMain?, closes]

/-- Statements behind declarations, which do nothing. -/
def behindDeclarations (count : Nat) (statement : Statement) : Statement :=
  (List.replicate count Statement.skip).foldr .seq statement

theorem leaves_declarations {declarations : List (List Token)}
    (each : ∀ tokens ∈ declarations, IsDeclaration tokens)
    (more : Leaves (.nonterminal "STMTS") others (StatesAll rest)) :
    Leaves (.nonterminal "STMTS") (declarations.flatten ++ others)
      (StatesAll (behindDeclarations declarations.length rest)) := by
  induction declarations with
  | nil => exact more
  | cons tokens declarations ih =>
    have first := leaves_declaration (each tokens (by simp))
    rw [List.flatten_cons, List.append_assoc]
    exact leaves_statement first (ih (List.forall_mem_cons.mp each).2)

theorem mainBlock_derivation {opener closer : Token} {main : Statement}
    (opens : opener.category = startWord) (closes : closer.category = endWord)
    (statements : Leaves (.nonterminal "STMTS") tokens (StatesAll main)) :
    ∃ tree, standardGrammar.IsDerivation tree ∧
      SyntaxTree.symbol tree = .nonterminal standardGrammar.start ∧
      SyntaxTree.tokens tree = opener :: (tokens ++ [closer]) ∧
      ∀ other, other.unnumbered = tree.unnumbered →
        Program.read? (Compiler.normalize other) = some { functions := [], main } := by
  obtain ⟨⟨production, member, name, body⟩, noFunctions⟩ := statement_productions.1
  have functions := leaves_wrapper noFunctions (by decide) .nil
  obtain ⟨trees, derivations, same, read, each⟩ := functions.cons
    ((leaves_word "start" opens).cons (statements.cons ((leaves_word "end" closes).cons .nil)))
  have derivation := Grammar.isDerivation_nonterminal 0 member (same.trans body.symm) derivations
  rw [name] at derivation
  refine ⟨_, derivation, ?_, ?_, ?_⟩
  · rw [standardGrammar_start]
    rfl
  · rw [SyntaxTree.tokens_node _ _ rfl, read]
    simp
  · -- No function leaves a node, so the block starts with its opening word.
    intro other equal
    obtain ⟨number, children, rfl, below⟩ := Tree.eq_node_of_unnumbered equal
    obtain ⟨_, _, forest, rfl, _, _, rfl, ⟨first, rfl, isFirst⟩, inner, _, rfl, states, _, _, rfl,
      ⟨last, rfl, isLast⟩, rfl⟩ := each children below
    have isEnd : last.value.symbol.hasCategory endWord = true := isLast.has closes
    exact read_root forest (by simp) isFirst opens (fun rest program known => by simpa using known)
      (states last isEnd)

end Language

end ThreeAddress

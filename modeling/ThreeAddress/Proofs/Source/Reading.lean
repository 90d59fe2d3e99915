import ThreeAddress.Proofs.Language.Modes
import ThreeAddress.Proofs.Source.Syntax
import ThreeAddress.Proofs.Syntax.Normalization

/-!
Every derivation of the language reads as a program.

What normalization leaves of a derivation depends on the role of its symbol only.
For each role there is one form, and it follows from the forms of the symbols in a body of the role.
-/

namespace ThreeAddress

open List

namespace Source

/-- An expression whose names and literals are of given kinds. -/
def Expression.Within (names literals : Handle → Prop) : Expression → Prop
  | name handle => names handle
  | literal handle => literals handle
  | binary _ left right => left.Within names literals ∧ right.Within names literals

/-- A call whose names and literals are of given kinds. -/
def Call.Within (names literals : Handle → Prop) (call : Call) : Prop :=
  names call.function ∧ ∀ argument ∈ call.arguments, argument.Within names literals

/-- A statement whose names and literals are of given kinds. -/
def Statement.Within (names literals : Handle → Prop) : Statement → Prop
  | skip => True
  | assign target value => names target ∧ value.Within names literals
  | assignCall target source => names target ∧ source.Within names literals
  | call source => source.Within names literals
  | ret value => value.Within names literals
  | seq first second => first.Within names literals ∧ second.Within names literals
  | cond test yes no =>
    test.Within names literals ∧ yes.Within names literals ∧ no.Within names literals
  | loop test body => test.Within names literals ∧ body.Within names literals

end Source

/-- A token whose handle is of the kind that its category asks for. -/
structure Token.Fits (names literals : Handle → Prop) (token : Token) : Prop where
  name : token.category = Language.identifier → names token.handle
  literal : Language.Role.ofCategory token.category = .literal → literals token.handle

namespace Language

open Source

/-- What holds of the parts of some nodes and their tokens, one role after the other. -/
def Side (holds : Role → List Token → List SyntaxTree → Prop) :
    List Role → List Token → List SyntaxTree → Prop
  | [], tokens, forest => tokens = [] ∧ forest = []
  | role :: roles, tokens, forest => ∃ here others first rest,
      tokens = here ++ others ∧ forest = first ++ rest ∧ holds role here first ∧
        Side holds roles others rest

theorem side_of_children {holds : Role → List Token → List SyntaxTree → Prop}
    {children : List SyntaxTree}
    (each : ∀ child ∈ children, holds (Role.ofSymbol (SyntaxTree.symbol child))
      (SyntaxTree.tokens child) (normalizer.forest [child])) :
    Side holds (children.map fun child => Role.ofSymbol (SyntaxTree.symbol child))
      (children.flatMap SyntaxTree.tokens) (normalizer.forest children) := by
  induction children with
  | nil => exact ⟨rfl, rfl⟩
  | cons child rest ih =>
    exact ⟨_, _, _, _, rfl, normalizer.forest_cons child rest, each child (by simp),
      ih (forall_mem_cons.mp each).2⟩

/-- A leaf that holds a token. -/
def IsLeaf (token : Token) (tree : SyntaxTree) : Prop :=
  ∃ id name, tree = .node id { symbol := .terminal name token.category, token := some token } []

namespace IsLeaf

variable {token : Token} {tree : SyntaxTree}

theorem hasCategory (leaf : IsLeaf token tree) (category : Category) :
    tree.value.symbol.hasCategory category = (token.category == category) := by
  obtain ⟨id, name, rfl⟩ := leaf
  simp [Tree.value, Symbol.hasCategory, Symbol.category?]

variable {category : Category}

section

variable (leaf : IsLeaf token tree)
include leaf

theorem has (same : token.category = category) :
    tree.value.symbol.hasCategory category = true := by
  rw [leaf.hasCategory, same]
  exact beq_self_eq_true category

theorem lacks {other : Category} (same : token.category = category)
    (different : category ≠ other) : tree.value.symbol.hasCategory other = false := by
  rw [leaf.hasCategory, same]
  exact beq_eq_false_iff_ne.mpr different

theorem category? :
    tree.value.symbol.category? = some token.category := by
  obtain ⟨id, name, rfl⟩ := leaf
  rfl

theorem ne_nonterminal (name : Text) :
    tree.value.symbol ≠ .nonterminal name := by
  obtain ⟨id, spelled, rfl⟩ := leaf
  simp [Tree.value]

theorem handle : tree.value.handle = token.handle := by
  obtain ⟨id, name, rfl⟩ := leaf
  rfl

end

end IsLeaf

/-- The symbols that may stand at the root of an expression. -/
def IsOperand (symbol : Symbol) : Prop :=
  match symbol with
  | .nonterminal name => name ∈ Role.operandNames
  | .terminal _ category => Role.ofCategory category = .name ∨ Role.ofCategory category = .literal

/-- Nodes that are one node, which reads as an expression. -/
def ReadsAs (expression : Expression) (forest : List SyntaxTree) : Prop :=
  ∃ tree, forest = [tree] ∧ IsOperand tree.value.symbol ∧ Expression.read? tree = some expression

/-- The non-terminals of statements. -/
def statementNames : List Text := ["DECL", "ASSIGN", "IF", "LOOP", "RETURN", "CALLSTMT"]

section Forms

variable (names literals : Handle → Prop)

/-- What an expression leaves. -/
def OperandForm (forest : List SyntaxTree) : Prop :=
  ∃ tree expression, forest = [tree] ∧ IsOperand tree.value.symbol ∧
    Expression.read? tree = some expression ∧ expression.Within names literals

/-- What a call leaves. -/
def CallForm (forest : List SyntaxTree) : Prop :=
  ∃ tree call, forest = [tree] ∧ tree.value.symbol = .nonterminal "CALL" ∧
    Call.read? tree = some call ∧ call.Within names literals

/-- What the arguments of a call leave. -/
def ArgumentsForm (forest : List SyntaxTree) : Prop :=
  ∃ arguments : List Expression, Call.readArguments? forest = some arguments ∧
    ∀ argument ∈ arguments, argument.Within names literals

/-- What a statement leaves. -/
def StatementForm (forest : List SyntaxTree) : Prop := ∃ tree statement, forest = [tree] ∧
    (∃ name ∈ statementNames, tree.value.symbol = .nonterminal name) ∧
    Statement.read? tree = some statement ∧ statement.Within names literals

/-- What a symbol leaves within a block or a header, by its role. -/
def Form : Role → List Token → List SyntaxTree → Prop
  | .operand, _, forest => OperandForm names literals forest
  | .tail, _, forest => ∀ left : Expression, left.Within names literals →
      ∃ joined : Expression, joined.Within names literals ∧
        ∀ rest, Expression.readTail? left (forest ++ rest) = Expression.readTail? joined rest
  | .source, _, forest => OperandForm names literals forest ∨ CallForm names literals forest
  | .call, _, forest => CallForm names literals forest
  | .arguments, _, forest | .argumentsTail, _, forest => ArgumentsForm names literals forest
  | .initializer, _, forest => forest = [] ∨
      ∃ mark token, IsLeaf token mark ∧ ∃ values, forest = mark :: values ∧
        OperandForm names literals values
  | .declaration, _, forest | .assignment, _, forest | .callStatement, _, forest
  | .conditional, _, forest | .loop, _, forest | .ret, _, forest | .statement, _, forest =>
      StatementForm names literals forest
  | .otherwise, _, forest => ∃ tree statement, forest = [tree] ∧
      Statement.readRest? [tree] = some statement ∧ Statement.Within names literals statement
  | .statements, _, forest =>
      (∀ tree ∈ forest, ∃ name ∈ statementNames, tree.value.symbol = .nonterminal name) ∧
      ∃ statement : Statement, statement.Within names literals ∧
        (∀ close rest, close.value.symbol.hasCategory closeBrace = true →
          Statement.readStatements? (forest ++ close :: rest) = some statement) ∧
        ∀ close, close.value.symbol.hasCategory endWord = true →
          Program.readMain? (forest ++ [close]) = some statement
  | .params, tokens, forest | .paramsTail, tokens, forest | .param, tokens, forest =>
      (∀ tree ∈ forest, tree.value.symbol.hasCategory openBrace = false) ∧
        Function.readParams? forest = some (nameHandles tokens)
  | .program, _, _ | .functions, _, _ | .function, _, _ => True
  | .type, tokens, forest => ∃ token tree, tokens = [token] ∧ forest = [tree] ∧ IsLeaf token tree ∧
      Role.ofCategory token.category = .typeWord
  | role, tokens, forest => ∃ token tree, tokens = [token] ∧ forest = [tree] ∧ IsLeaf token tree ∧
      Role.ofCategory token.category = role ∧ token.Fits names literals

variable {names literals : Handle → Prop} {roles : List Role} {tokens : List Token}
  {forest : List SyntaxTree} {category : Int} {role : Role} {rest : List SyntaxTree} {token : Token}
  {tree : SyntaxTree} {expression : Expression} {body : List Role}

theorem Side.word (side : Side (Form names literals) (.word category :: roles) tokens forest) :
    ∃ token tree others rest, tokens = token :: others ∧ forest = tree :: rest ∧
      IsLeaf token tree ∧ token.category = category ∧
      Side (Form names literals) roles others rest := by
  obtain ⟨here, others, first, rest, rfl, rfl, ⟨token, tree, rfl, rfl, leaf, role, _⟩, behind⟩ := side
  exact ⟨token, tree, others, rest, rfl, rfl, leaf, Role.eq_of_word role, behind⟩

theorem Side.name (side : Side (Form names literals) (.name :: roles) tokens forest) :
    ∃ token tree others rest, tokens = token :: others ∧ forest = tree :: rest ∧
      IsLeaf token tree ∧ token.category = identifier ∧ names token.handle ∧
      Side (Form names literals) roles others rest := by
  obtain ⟨here, others, first, rest, rfl, rfl, ⟨token, tree, rfl, rfl, leaf, role, fits⟩, behind⟩ :=
    side
  have category := Role.eq_identifier role
  exact ⟨token, tree, others, rest, rfl, rfl, leaf, category, fits.name category, behind⟩

theorem Side.type (side : Side (Form names literals) (.type :: roles) tokens forest) :
    ∃ token tree others rest, tokens = token :: others ∧ forest = tree :: rest ∧
      IsLeaf token tree ∧ isTypeWord token.category = true ∧
      Side (Form names literals) roles others rest := by
  obtain ⟨here, others, first, rest, rfl, rfl, ⟨token, tree, rfl, rfl, leaf, role⟩, behind⟩ := side
  exact ⟨token, tree, others, rest, rfl, rfl, leaf, Role.isTypeWord_of_role role, behind⟩

theorem Side.operand (side : Side (Form names literals) (.operand :: roles) tokens forest) :
    ∃ tree expression others rest, forest = tree :: rest ∧ IsOperand tree.value.symbol ∧
      Expression.read? tree = some expression ∧ expression.Within names literals ∧
      Side (Form names literals) roles others rest := by
  obtain ⟨here, others, first, rest, rfl, rfl, ⟨tree, expression, rfl, operand, read, within⟩, behind⟩ :=
    side
  exact ⟨tree, expression, others, rest, rfl, operand, read, within, behind⟩

theorem Side.last (side : Side (Form names literals) [role] tokens forest) :
    Form names literals role tokens forest := by
  obtain ⟨here, others, first, rest, rfl, rfl, form, rfl, rfl⟩ := side
  simpa using form

variable {first second : SyntaxTree}

theorem close_stays (id : Nat) (label : Label)
    (notParen : first.value.symbol.hasCategory openParen = false) :
    normalizer.close id label (first :: second :: rest) =
      [.node id label (first :: second :: rest)] := by
  have open_ : normalizer.opening = openParen := rfl
  simp only [Normalizer.close, Normalizer.ungroup, Tree.children]
  split
  · rename_i same
    cases same
    simp [open_, notParen]
  · rfl

theorem IsOperand.hasCategory {symbol : Symbol} (operand : IsOperand symbol) {category : Int}
    (notName : Role.ofCategory category ≠ .name) (notLiteral : Role.ofCategory category ≠ .literal) :
    symbol.hasCategory category = false := by
  cases symbol with
  | nonterminal name => rfl
  | terminal name other =>
    simp only [Symbol.hasCategory, Symbol.category?, beq_eq_false_iff_ne, ne_eq, Option.some.injEq]
    rintro rfl
    rcases operand with is | is
    · exact notName is
    · exact notLiteral is

theorem readsAs_name (leaf : IsLeaf token tree) (category : token.category = identifier) :
    ReadsAs (.name token.handle) [tree] := by
  obtain ⟨id, name, rfl⟩ := leaf
  refine ⟨_, rfl, .inl ?_, ?_⟩
  · rw [category]
    rfl
  · simp [Expression.read?, Expression.ofLeaf?, category]

theorem readsAs_literal (leaf : IsLeaf token tree)
    (role : Role.ofCategory token.category = .literal) :
    ReadsAs (.literal token.handle) [tree] := by
  obtain ⟨id, name, rfl⟩ := leaf
  have category := Role.isLiteral_of_role role
  have notName : token.category ≠ identifier := by
    rcases category with is | is | is <;> rw [is] <;> decide
  exact ⟨_, rfl, .inr role, by simp [Expression.read?, Expression.ofLeaf?, category, notName]⟩

variable {name : Text} {left : Expression}

theorem readsAs_chain (id : Nat) (level : name ∈ Role.operandNames) {first : List SyntaxTree}
    {joined : Expression} (operand : ReadsAs left first)
    (tail : Expression.readTail? left rest = some joined) :
    ReadsAs joined (normalizer.close id { symbol := .nonterminal name } (first ++ rest)) := by
  obtain ⟨tree, rfl, operand, read⟩ := operand
  cases rest with
  | nil =>
    obtain rfl : left = joined := by simpa [Expression.readTail?] using tail
    exact ⟨tree, rfl, operand, read⟩
  | cons second others =>
    have notParen := operand.hasCategory (by decide : Role.ofCategory openParen ≠ .name) (by decide)
    rw [singleton_append, close_stays id _ notParen]
    exact ⟨_, rfl, level, by simp [Expression.read?, Symbol.isTerminal, read, tail]⟩

theorem close_group (id : Nat) (label : Label) {left right : Token} {opening closing : SyntaxTree}
    (isOpening : IsLeaf left opening) (opens : left.category = openParen)
    (isClosing : IsLeaf right closing) (closes : right.category = closeParen) :
    normalizer.close id label [opening, tree, closing] = [tree] := by
  have opened : opening.value.symbol.hasCategory normalizer.opening = true := isOpening.has opens
  have closed : closing.value.symbol.hasCategory normalizer.closing = true := isClosing.has closes
  simp [Normalizer.close, Normalizer.ungroup, Tree.children, opened, closed]

theorem ReadsAs.form (reads : ReadsAs expression forest) (within : expression.Within names literals) :
    OperandForm names literals forest := by
  obtain ⟨tree, rfl, operand, read⟩ := reads
  exact ⟨tree, expression, rfl, operand, read, within⟩

theorem form_chain (id : Nat) (level : name ∈ Role.operandNames)
    (side : Side (Form names literals) [.operand, .tail] tokens forest) :
    OperandForm names literals (normalizer.close id { symbol := .nonterminal name } forest) := by
  obtain ⟨first, left, _, rest, rfl, operand, read, within, behind⟩ := side.operand
  obtain ⟨joined, inside, tail⟩ := behind.last left within
  have done := tail []
  rw [append_nil, Expression.readTail?] at done
  exact (readsAs_chain id level ⟨first, rfl, operand, read⟩ done).form inside

theorem form_group (id : Nat) (label : Label)
    (side : Side (Form names literals) [.word 21, .operand, .word 22] tokens forest) :
    OperandForm names literals (normalizer.close id label forest) := by
  obtain ⟨left, opening, _, _, rfl, rfl, isOpening, opens, side⟩ := side.word
  obtain ⟨tree, expression, _, _, rfl, operand, read, within, side⟩ := side.operand
  obtain ⟨right, closing, _, _, rfl, rfl, isClosing, closes, rfl, rfl⟩ := side.word
  rw [close_group id label isOpening opens isClosing closes]
  exact ⟨tree, expression, rfl, operand, read, within⟩

theorem ofCategory?_of_isOperator (operator : isOperator category = true) :
    ∃ operation, BinaryOperation.ofCategory? category = some operation := by
  have range : 28 ≤ category ∧ category ≤ 39 := by simpa [isOperator] using operator
  have inside : (category - 28).toNat < BinaryOperation.all.length := by
    simp only [BinaryOperation.all, length_cons, length_nil]
    omega
  exact ⟨_, by rw [BinaryOperation.ofCategory?, if_pos operator, getElem?_eq_getElem inside]⟩

theorem readTail?_step {operator : SyntaxTree} {right : Expression} {operation : BinaryOperation}
    (leaf : IsLeaf token operator)
    (known : BinaryOperation.ofCategory? token.category = some operation)
    (read : Expression.read? tree = some right) (rest : List SyntaxTree) :
    Expression.readTail? left (operator :: tree :: rest) =
      Expression.readTail? (.binary operation left right) rest := by
  simp [Expression.readTail?, leaf.category?, known, read]

theorem Side.operator (side : Side (Form names literals) (.operator :: roles) tokens forest) :
    ∃ token tree others rest, forest = tree :: rest ∧ IsLeaf token tree ∧
      isOperator token.category = true ∧ Side (Form names literals) roles others rest := by
  obtain ⟨here, others, first, rest, rfl, rfl, ⟨token, tree, rfl, rfl, leaf, role, _⟩, behind⟩ := side
  exact ⟨token, tree, others, rest, rfl, leaf, Role.isOperator_of_role role, behind⟩

theorem form_tail (member : body ∈ Role.tail.bodies)
    (side : Side (Form names literals) body tokens forest) :
    Form names literals .tail tokens forest := by
  intro left within
  simp only [Role.bodies, mem_cons, not_mem_nil, or_false] at member
  rcases member with rfl | rfl | rfl
  · obtain ⟨token, operator, _, _, rfl, leaf, isOperator, side⟩ := side.operator
    obtain ⟨tree, right, _, _, rfl, _, read, inside, side⟩ := side.operand
    obtain ⟨operation, known⟩ := ofCategory?_of_isOperator isOperator
    obtain ⟨joined, all, tail⟩ := side.last (.binary operation left right) ⟨within, inside⟩
    refine ⟨joined, all, fun rest => ?_⟩
    rw [cons_append, cons_append, readTail?_step leaf known read, tail]
  · obtain ⟨token, operator, _, _, rfl, leaf, isOperator, side⟩ := side.operator
    obtain ⟨tree, right, _, _, rfl, _, read, inside, rfl, rfl⟩ := side.operand
    obtain ⟨operation, known⟩ := ofCategory?_of_isOperator isOperator
    exact ⟨.binary operation left right, ⟨within, inside⟩, readTail?_step leaf known read⟩
  · obtain ⟨rfl, rfl⟩ := side
    exact ⟨left, within, fun rest => rfl⟩

theorem readArguments?_cons {arguments : List Expression} (operand : IsOperand tree.value.symbol)
    (read : Expression.read? tree = some expression)
    (others : Call.readArguments? rest = some arguments) :
    Call.readArguments? (tree :: rest) = some (expression :: arguments) := by
  have notComma := operand.hasCategory (by decide : Role.ofCategory comma ≠ .name) (by decide)
  simp [Call.readArguments?, notComma, read, others]

/-- Items in a row: one and the further ones, or none, where a comma stands in front of all but the first. -/
theorem Side.row {item further first : Role} (good : List Token → List SyntaxTree → Prop) (none : good [] [])
    (joined : ∀ {tokens forest}, Side (Form names literals) [item, further] tokens forest → good tokens forest)
    (behind : ∀ {token tree tokens forest}, IsLeaf token tree → token.category = comma →
      good tokens forest → good (token :: tokens) (tree :: forest))
    (is : role = first ∨ role = further) (bodies : first.bodies = [[item, further], []] ∧
      further.bodies = [[.word 25, item, further], []]) (member : body ∈ role.bodies)
    (side : Side (Form names literals) body tokens forest) : good tokens forest := by
  rcases is with rfl | rfl
  · rw [bodies.1] at member
    rcases mem_pair.mp member with rfl | rfl
    · exact joined side
    · obtain ⟨rfl, rfl⟩ := side
      exact none
  · rw [bodies.2] at member
    rcases mem_pair.mp member with rfl | rfl
    · obtain ⟨token, tree, _, rest, rfl, rfl, leaf, category, side⟩ := side.word
      exact behind leaf category (joined side)
    · obtain ⟨rfl, rfl⟩ := side
      exact none

theorem form_arguments (is : role = .arguments ∨ role = .argumentsTail)
    (member : body ∈ role.bodies) (side : Side (Form names literals) body tokens forest) :
    ArgumentsForm names literals forest := by
  refine Side.row (fun _ => ArgumentsForm names literals) ⟨[], rfl, by simp⟩ ?_ ?_ is ⟨rfl, rfl⟩ member side
  · intro tokens forest side
    obtain ⟨tree, expression, _, rest, rfl, operand, read, within, side⟩ := side.operand
    obtain ⟨arguments, others, inside⟩ := side.last
    exact ⟨expression :: arguments, readArguments?_cons operand read others,
      forall_mem_cons.mpr ⟨within, inside⟩⟩
  · rintro token tree tokens forest leaf category ⟨arguments, others, inside⟩
    have isComma : tree.value.symbol.hasCategory comma = true := leaf.has category
    exact ⟨arguments, by simp [Call.readArguments?, isComma, others], inside⟩

section

variable (id : Nat)
include id

theorem form_call
    (side : Side (Form names literals) [.word 7, .name, .word 21, .arguments, .word 22]
      tokens forest) :
    CallForm names literals (normalizer.close id { symbol := .nonterminal "CALL" } forest) := by
  obtain ⟨_, word, _, _, rfl, rfl, isWord, category, side⟩ := side.word
  obtain ⟨_, callee, _, _, rfl, rfl, isCallee, _, named, side⟩ := side.name
  obtain ⟨_, opening, _, _, rfl, rfl, isOpening, _, side⟩ := side.word
  obtain ⟨_, _, inner, rest, rfl, rfl, ⟨arguments, read, within⟩, side⟩ := side
  obtain ⟨_, closing, _, _, rfl, rfl, isClosing, _, rfl, rfl⟩ := side.word
  rw [close_stays id _ (isWord.lacks category (by decide))]
  refine ⟨_, ⟨_, arguments⟩, rfl, rfl, ?_, named, within⟩
  simp [Call.read?, Tree.children, read, isCallee.handle]

theorem statement_form (listed : name ∈ statementNames)
    (notParen : first.value.symbol.hasCategory openParen = false) {statement : Statement}
    (read : Statement.read? (.node id { symbol := .nonterminal name } (first :: second :: rest)) =
      some statement) (within : statement.Within names literals) :
    StatementForm names literals
      (normalizer.close id { symbol := .nonterminal name } (first :: second :: rest)) := by
  rw [close_stays id _ notParen]
  exact ⟨_, statement, rfl, ⟨name, listed, rfl⟩, read, within⟩

/-- A statement that holds no others is read from its own children. -/
theorem simple_form (statement : Statement)
    (simple : name ∈ statementNames ∧ name ≠ "IF" ∧ name ≠ "LOOP")
    (notParen : first.value.symbol.hasCategory openParen = false)
    (read : Statement.readSimple? (.node id { symbol := .nonterminal name } (first :: second :: rest)) =
      some statement) (within : statement.Within names literals) :
    StatementForm names literals
      (normalizer.close id { symbol := .nonterminal name } (first :: second :: rest)) :=
  statement_form id simple.1 notParen (by simpa [Statement.read?, simple.2] using read) within

/-- A declaration does nothing, or assigns its first value. -/
theorem form_declaration
    (side : Side (Form names literals) [.word 6, .type, .name, .initializer, .word 26]
      tokens forest) :
    StatementForm names literals (normalizer.close id { symbol := .nonterminal "DECL" } forest) := by
  obtain ⟨_, word, _, _, rfl, rfl, isWord, category, side⟩ := side.word
  obtain ⟨_, type, _, _, rfl, rfl, _, _, side⟩ := side.type
  obtain ⟨token, place, _, _, rfl, rfl, isPlace, _, named, side⟩ := side.name
  obtain ⟨_, _, inner, rest, rfl, rfl, init, side⟩ := side
  obtain ⟨_, stop, _, _, rfl, rfl, _, _, rfl, rfl⟩ := side.word
  have notParen := isWord.lacks category (by decide : _ ≠ openParen)
  rcases init with rfl | ⟨mark, _, _, _, rfl, value, expression, rfl, _, read, within⟩
  · exact simple_form id .skip (by decide) notParen rfl trivial
  · refine simple_form id (.assign token.handle expression) (by decide) notParen ?_ ⟨named, within⟩
    simp [Statement.readSimple?, read, isPlace.handle]

theorem readSimple?_assign {place mark stop : SyntaxTree}
    (operand : IsOperand tree.value.symbol) (read : Expression.read? tree = some expression) :
    Statement.readSimple? (.node id { symbol := .nonterminal "ASSIGN" } [place, mark, tree, stop]) =
      some (.assign place.value.handle expression) := by
  have notDeclaration : ("ASSIGN" : Text) ≠ "DECL" := by decide
  -- No expression has the name of a call at its root.
  have notCall : tree.value.symbol ≠ .nonterminal "CALL" := by
    intro same
    rw [same] at operand
    exact absurd operand (by decide : ("CALL" : Text) ∉ Role.operandNames)
  simp [Statement.readSimple?, notDeclaration, notCall, read]

theorem form_assignment
    (side : Side (Form names literals) [.name, .word 27, .source, .word 26] tokens forest) :
    StatementForm names literals (normalizer.close id { symbol := .nonterminal "ASSIGN" } forest) := by
  obtain ⟨token, place, _, _, rfl, rfl, isPlace, category, named, side⟩ := side.name
  obtain ⟨_, mark, _, _, rfl, rfl, _, _, side⟩ := side.word
  obtain ⟨_, _, inner, rest, rfl, rfl, source, side⟩ := side
  obtain ⟨_, stop, _, _, rfl, rfl, _, _, rfl, rfl⟩ := side.word
  have notParen := isPlace.lacks category (by decide : _ ≠ openParen)
  rcases source with ⟨tree, expression, rfl, operand, read, within⟩ |
    ⟨tree, call, rfl, isCall, read, within⟩
  · refine simple_form id (.assign token.handle expression) (by decide) notParen ?_ ⟨named, within⟩
    exact isPlace.handle ▸ readSimple?_assign id operand read
  · refine simple_form id (.assignCall token.handle call) (by decide) notParen ?_ ⟨named, within⟩
    simp +decide [Statement.readSimple?, isCall, read, isPlace.handle]

theorem form_callStatement (side : Side (Form names literals) [.call, .word 26] tokens forest) :
    StatementForm names literals
      (normalizer.close id { symbol := .nonterminal "CALLSTMT" } forest) := by
  obtain ⟨_, _, _, _, rfl, rfl, ⟨tree, call, rfl, isCall, read, within⟩, side⟩ := side
  obtain ⟨_, stop, _, _, rfl, rfl, _, _, rfl, rfl⟩ := side.word
  have notParen : tree.value.symbol.hasCategory openParen = false := by
    rw [isCall]
    rfl
  refine simple_form id (.call call) (by decide) notParen ?_ within
  simp +decide [Statement.readSimple?, read]

theorem form_ret (side : Side (Form names literals) [.word 14, .operand, .word 26] tokens forest) :
    StatementForm names literals (normalizer.close id { symbol := .nonterminal "RETURN" } forest) := by
  obtain ⟨_, word, _, _, rfl, rfl, isWord, category, side⟩ := side.word
  obtain ⟨tree, expression, _, _, rfl, _, read, within, side⟩ := side.operand
  obtain ⟨_, stop, _, _, rfl, rfl, _, _, rfl, rfl⟩ := side.word
  refine simple_form id (.ret expression) (by decide) (isWord.lacks category (by decide)) ?_ within
  simp +decide [Statement.readSimple?, read]

end

theorem form_statements (member : body ∈ Role.statements.bodies)
    (side : Side (Form names literals) body tokens forest) :
    Form names literals .statements tokens forest := by
  rcases mem_pair.mp member with rfl | rfl
  · obtain ⟨_, _, _, _, rfl, rfl, ⟨tree, first, rfl, ⟨name, listed, symbol⟩, read, within⟩, side⟩ := side
    obtain ⟨nodes, second, inside, block, main⟩ := side.last
    -- The root of a statement is no closing word.
    have notWord : ∀ category, tree.value.symbol.hasCategory category = false := by
      intro category
      rw [symbol]
      rfl
    refine ⟨?_, .seq first second, ⟨within, inside⟩, ?_, ?_⟩
    · intro other found
      rcases mem_cons.mp found with rfl | later
      · exact ⟨name, listed, symbol⟩
      · exact nodes other later
    · intro close rest closes
      simp [Statement.readStatements?, notWord, read, block close rest closes]
    · intro close closes
      simp [Program.readMain?, notWord, read, main close closes]
  · obtain ⟨rfl, rfl⟩ := side
    refine ⟨by simp, .skip, trivial, ?_, ?_⟩
    · intro close rest closes
      simp [Statement.readStatements?, closes]
    · intro close closes
      simp [Program.readMain?, closes]

theorem readBlock?_skip (notBrace : tree.value.symbol.hasCategory openBrace = false) :
    Statement.readBlock? (tree :: rest) = Statement.readBlock? rest := by
  simp [Statement.readBlock?, notBrace]

theorem readBlock?_append {front : List SyntaxTree}
    (clear : ∀ tree ∈ front, tree.value.symbol.hasCategory openBrace = false)
    (rest : List SyntaxTree) :
    Statement.readBlock? (front ++ rest) = Statement.readBlock? rest := by
  induction front with
  | nil => rfl
  | cons tree others ih =>
    rw [cons_append, readBlock?_skip (clear tree (by simp))]
    exact ih (forall_mem_cons.mp clear).2

theorem readRest?_append (front : List SyntaxTree) (last : SyntaxTree) :
    Statement.readRest? (front ++ [last]) = Statement.readRest? [last] := by
  induction front with
  | nil => rfl
  | cons tree rest ih =>
    cases rest with
    | nil => rfl
    | cons second others => exact ih

/-- What stands behind a test in parentheses and a block in braces, and in front of a last symbol. -/
structure Tested (names literals : Handle → Prop) (category : Int) (last : Role)
    (forest : List SyntaxTree) : Prop where
  word : ∃ token tree second rest, forest = tree :: second :: rest ∧ IsLeaf token tree ∧
    token.category = category
  test : ∃ tree expression, forest[2]? = some tree ∧ Expression.read? tree = some expression ∧
    expression.Within names literals
  body : ∃ statement, Statement.readBlock? forest = some statement ∧
    Statement.Within names literals statement
  behind : ∃ front tokens rest, forest = front ++ rest ∧ Form names literals last tokens rest

/-- Branches with a test and loops are written alike. -/
theorem Side.tested {last : Role} (notBrace : category ≠ openBrace)
    (side : Side (Form names literals) [.word category, .word 21, .operand, .word 22, .word 23,
      .statements, .word 24, last] tokens forest) : Tested names literals category last forest := by
  obtain ⟨token, word, _, _, rfl, rfl, isWord, same, side⟩ := side.word
  obtain ⟨_, opening, _, _, rfl, rfl, isOpening, opens, side⟩ := side.word
  obtain ⟨test, expression, _, _, rfl, operand, read, within, side⟩ := side.operand
  obtain ⟨_, closing, _, _, rfl, rfl, isClosing, closes, side⟩ := side.word
  obtain ⟨_, brace, _, _, rfl, rfl, isBrace, starts, side⟩ := side.word
  obtain ⟨_, _, inner, _, rfl, rfl, ⟨_, body, inside, block, _⟩, side⟩ := side
  obtain ⟨_, stop, _, rest, rfl, rfl, isStop, stops, side⟩ := side.word
  have isOpen : brace.value.symbol.hasCategory openBrace = true := isBrace.has starts
  have isClose : stop.value.symbol.hasCategory closeBrace = true := isStop.has stops
  have notTest := operand.hasCategory (by decide : Role.ofCategory openBrace ≠ .name) (by decide)
  refine ⟨⟨token, word, _, _, rfl, isWord, same⟩, ⟨test, expression, rfl, read, within⟩,
    ⟨body, ?_, inside⟩, ⟨word :: opening :: test :: closing :: brace :: (inner ++ [stop]), _, rest,
      by simp, side.last⟩⟩
  -- The first brace is the one behind the test.
  rw [readBlock?_skip (isWord.lacks same notBrace),
    readBlock?_skip (isOpening.lacks opens (by decide)), readBlock?_skip notTest,
    readBlock?_skip (isClosing.lacks closes (by decide)), Statement.readBlock?, if_pos isOpen]
  exact block stop rest isClose

theorem Tested.branch (notElse : category ≠ elseWord)
    (tested : Tested names literals category .otherwise forest) :
    ∃ statement, Statement.joinBranch? forest (Statement.readBlock? forest)
        (Statement.readRest? forest) = some statement ∧
      Statement.Within names literals statement := by
  obtain ⟨token, word, second, rest, same, isWord, is⟩ := tested.word
  obtain ⟨test, expression, third, read, within⟩ := tested.test
  obtain ⟨body, block, inside⟩ := tested.body
  obtain ⟨front, _, _, split, last, no, rfl, others, below⟩ := tested.behind
  have notLast := isWord.lacks is notElse
  refine ⟨.cond expression body no, ?_, within, inside, below⟩
  rw [split] at third block ⊢
  rw [readRest?_append, others, block]
  rw [← split] at third ⊢
  rw [same] at third ⊢
  simp only [Statement.joinBranch?, Statement.lacksTest, head?_cons, Option.any_some, notLast,
    Bool.false_eq_true, if_false, third]
  simp [read]

theorem form_conditional (id : Nat)
    (side : Side (Form names literals) [.word 8, .word 21, .operand, .word 22, .word 23,
      .statements, .word 24, .otherwise] tokens forest) :
    StatementForm names literals (normalizer.close id { symbol := .nonterminal "IF" } forest) := by
  have tested := side.tested (by decide)
  obtain ⟨statement, read, within⟩ := tested.branch (by decide)
  obtain ⟨token, word, second, rest, rfl, isWord, is⟩ := tested.word
  refine statement_form id (by decide) (isWord.lacks is (by decide)) ?_ within
  have hasTest : Statement.lacksTest (word :: second :: rest) = false :=
    isWord.lacks is (by decide : _ ≠ elseWord)
  simpa [Statement.read?, hasTest] using read

theorem form_loop (id : Nat)
    (side : Side (Form names literals) [.word 12, .word 21, .operand, .word 22, .word 23,
      .statements, .word 24, .word 13] tokens forest) :
    StatementForm names literals (normalizer.close id { symbol := .nonterminal "LOOP" } forest) := by
  have tested := side.tested (by decide)
  obtain ⟨token, word, second, rest, rfl, isWord, is⟩ := tested.word
  obtain ⟨test, expression, third, read, inTest⟩ := tested.test
  obtain ⟨body, block, inBody⟩ := tested.body
  have notIf : ("LOOP" : Text) ≠ "IF" := by decide
  have loops : Statement.read? (.node id { symbol := .nonterminal "LOOP" } (word :: second :: rest)) =
      some (.loop expression body) := by
    simp only [Statement.read?, Symbol.nonterminal.injEq, notIf, if_false, if_true, third, block,
      Option.bind_eq_bind, Option.bind_some, read]
    rfl
  exact statement_form id (by decide) (isWord.lacks is (by decide)) loops ⟨inTest, inBody⟩

/-- The branches behind the first are tested, or a last one without a test, or there are none. -/
theorem form_otherwise (id : Nat) (member : body ∈ Role.otherwise.bodies)
    (side : Side (Form names literals) body tokens forest) :
    Form names literals .otherwise tokens
      (normalizer.close id { symbol := .nonterminal "ELSE" } forest) := by
  have further : ∀ {first second rest} {statement : Statement},
      first.value.symbol.hasCategory openParen = false →
      Statement.joinBranch? (first :: second :: rest)
        (Statement.readBlock? (first :: second :: rest))
        (Statement.readRest? (first :: second :: rest)) = some statement →
      statement.Within names literals →
      Form names literals .otherwise tokens
        (normalizer.close id { symbol := .nonterminal "ELSE" } (first :: second :: rest)) := by
    intro first second rest statement notParen read within
    rw [close_stays id _ notParen]
    refine ⟨_, statement, rfl, ?_, within⟩
    simpa [Statement.readRest?, Statement.readBranch?] using read
  simp only [Role.bodies, mem_cons, not_mem_nil, or_false] at member
  rcases member with rfl | rfl | rfl
  · have tested := side.tested (by decide)
    obtain ⟨statement, read, within⟩ := tested.branch (by decide)
    obtain ⟨token, word, second, rest, rfl, isWord, is⟩ := tested.word
    exact further (isWord.lacks is (by decide)) read within
  · obtain ⟨_, word, _, _, rfl, rfl, isWord, is, side⟩ := side.word
    obtain ⟨_, brace, _, _, rfl, rfl, isBrace, starts, side⟩ := side.word
    obtain ⟨_, _, inner, _, rfl, rfl, ⟨_, statement, within, block, _⟩, side⟩ := side
    obtain ⟨_, stop, _, _, rfl, rfl, isStop, stops, side⟩ := side.word
    obtain ⟨_, last, _, _, rfl, rfl, isLast, _, rfl, rfl⟩ := side.word
    have isElse : word.value.symbol.hasCategory elseWord = true := isWord.has is
    have isOpen : brace.value.symbol.hasCategory openBrace = true := isBrace.has starts
    have isClose : stop.value.symbol.hasCategory closeBrace = true := isStop.has stops
    have read : Statement.readBlock? (word :: brace :: (inner ++ [stop, last])) = some statement := by
      rw [readBlock?_skip (isWord.lacks is (by decide)), Statement.readBlock?, if_pos isOpen]
      exact block stop [last] isClose
    have ends : (word :: brace :: (inner ++ [stop, last])).getLast? = some last := by
      simp [getLast?_cons]
    refine further (isWord.lacks is (by decide)) ?_ within
    have notBranch : (last.value.symbol == .nonterminal "ELSE") = false :=
      beq_eq_false_iff_ne.mpr (isLast.ne_nonterminal _)
    simp [Statement.joinBranch?, Statement.lacksTest, isElse, ends, notBranch, read]
  · obtain ⟨_, word, _, _, rfl, rfl, isWord, _, rfl, rfl⟩ := side.word
    refine ⟨word, .skip, rfl, ?_, trivial⟩
    simp [Statement.readRest?, isWord.ne_nonterminal]

theorem readParams?_append {first second : List SyntaxTree} {left right : List Handle}
    (one : Function.readParams? first = some left) (two : Function.readParams? second = some right) :
    Function.readParams? (first ++ second) = some (left ++ right) := by
  induction first generalizing left with
  | nil =>
    cases one
    exact two
  | cons tree rest ih =>
    rw [Function.readParams?] at one
    rw [cons_append, Function.readParams?]
    split at one
    · rename_i isParam
      obtain ⟨name, found, one⟩ := Option.bind_eq_some_iff.mp one
      obtain ⟨others, read, same⟩ := Option.bind_eq_some_iff.mp one
      cases same
      rw [if_pos isParam, found, ih read]
      rfl
    · rename_i notParam
      rw [if_neg notParam]
      exact ih one

theorem readParams?_none {trees : List SyntaxTree}
    (others : ∀ tree ∈ trees, tree.value.symbol ≠ .nonterminal "PARAM") :
    Function.readParams? trees = some [] := by
  induction trees with
  | nil => rfl
  | cons tree rest ih =>
    rw [Function.readParams?, if_neg (others tree (by simp))]
    exact ih (forall_mem_cons.mp others).2

theorem form_param (id : Nat) (side : Side (Form names literals) [.type, .name] tokens forest) :
    Form names literals .param tokens
      (normalizer.close id { symbol := .nonterminal "PARAM" } forest) := by
  obtain ⟨word, type, _, _, rfl, rfl, isType, typed, side⟩ := side.type
  obtain ⟨token, name, _, _, rfl, rfl, isName, category, _, rfl, rfl⟩ := side.name
  have notName : word.category ≠ identifier := by
    intro same
    rw [same] at typed
    cases typed
  have notParen : type.value.symbol.hasCategory openParen = false := by
    rw [isType.hasCategory]
    apply beq_eq_false_iff_ne.mpr
    intro same
    rw [same] at typed
    cases typed
  rw [close_stays id _ notParen]
  refine ⟨by simp [Symbol.hasCategory, Symbol.category?], ?_⟩
  simp [Function.readParams?, isName.handle, nameHandles, notName, category]

theorem form_params (is : role = .params ∨ role = .paramsTail) (member : body ∈ role.bodies)
    (side : Side (Form names literals) body tokens forest) :
    Form names literals .params tokens forest := by
  refine Side.row (Form names literals .params) ⟨by simp, rfl⟩ ?_ ?_ is ⟨rfl, rfl⟩ member side
  · rintro tokens forest ⟨_, _, _, _, rfl, rfl, ⟨clear, read⟩, side⟩
    obtain ⟨others, rest⟩ := side.last
    rw [Form, nameHandles_append]
    exact ⟨forall_mem_append.mpr ⟨clear, others⟩, readParams?_append read rest⟩
  · rintro token tree tokens forest leaf category ⟨clear, read⟩
    refine ⟨forall_mem_cons.mpr ⟨leaf.lacks category (by decide), clear⟩, ?_⟩
    rw [nameHandles_cons (by rw [category]; decide)]
    simpa [Function.readParams?, leaf.ne_nonterminal] using read

/-- A symbol that stands for sequencing leaves what the symbols of its body leave. -/
theorem form_wrapper (wrapper : role.isWrapper = true) (member : body ∈ role.bodies)
    (side : Side (Form names literals) body tokens forest) :
    Form names literals role tokens forest := by
  cases role with
  | functions => trivial
  | params => exact form_params (.inl rfl) member side
  | paramsTail => exact form_params (.inr rfl) member side
  | statements => exact form_statements member side
  | statement =>
    simp only [Role.bodies, mem_cons, not_mem_nil, or_false] at member
    rcases member with rfl | rfl | rfl | rfl | rfl | rfl <;> exact side.last
  | initializer =>
    rcases mem_pair.mp member with rfl | rfl
    · obtain ⟨token, mark, _, rest, rfl, rfl, leaf, _, side⟩ := side.word
      exact .inr ⟨mark, token, leaf, rest, rfl, side.last⟩
    · exact .inl side.2
  | arguments => exact form_arguments (.inl rfl) member side
  | argumentsTail => exact form_arguments (.inr rfl) member side
  | tail => exact form_tail member side
  | _ => cases wrapper

/-- Any other symbol leaves a node above what the symbols of its body leave, if they are several. -/
theorem form_closed (id : Nat) (plain : (Role.ofSymbol (.nonterminal name)).isWrapper = false)
    (member : body ∈ (Role.ofSymbol (.nonterminal name)).bodies)
    (named : ∀ entry ∈ Role.named, entry.2 = Role.ofSymbol (.nonterminal name) → name = entry.1)
    (level : Role.ofSymbol (.nonterminal name) = .operand → name ∈ Role.operandNames)
    (side : Side (Form names literals) body tokens forest) :
    Form names literals (Role.ofSymbol (.nonterminal name)) tokens
      (normalizer.close id { symbol := .nonterminal name } forest) := by
  -- A role of one body and one symbol tells both.
  have single : ∀ {one : Role} {only : List Role} (spelled : Text), (spelled, one) ∈ Role.named →
      Role.ofSymbol (.nonterminal name) = one → one.bodies = [only] → name = spelled ∧ body = only := by
    intro one only spelled listed role bodies
    rw [role, bodies] at member
    exact ⟨named _ listed role.symm, mem_singleton.mp member⟩
  cases role : Role.ofSymbol (.nonterminal name) with
  | program | function => trivial
  | functions | params | paramsTail | statements | statement | initializer | arguments
  | argumentsTail | tail => rw [role] at plain; cases plain
  | name | literal | typeWord | operator | word category => rw [role] at member; cases member
  | operand =>
    rw [role] at member
    simp only [Role.bodies, mem_cons, not_mem_nil, or_false] at member
    rcases member with rfl | rfl | rfl | rfl
    · exact form_chain id (level role) side
    · exact form_group id _ side
    · obtain ⟨token, tree, _, _, rfl, rfl, leaf, category, named, rfl, rfl⟩ := side.name
      exact (readsAs_name leaf category).form named
    · obtain ⟨token, tree, rfl, rfl, leaf, literal, fits⟩ := side.last
      exact (readsAs_literal leaf literal).form (fits.literal literal)
  | source =>
    rw [role] at member
    rcases mem_pair.mp member with rfl | rfl
    · obtain ⟨tree, expression, rfl, form⟩ := side.last
      exact .inl ⟨tree, expression, rfl, form⟩
    · obtain ⟨tree, call, rfl, form⟩ := side.last
      exact .inr ⟨tree, call, rfl, form⟩
  | type =>
    rw [role] at member
    cases mem_singleton.mp member
    obtain ⟨token, tree, rfl, rfl, leaf, typed, _⟩ := side.last
    exact ⟨token, tree, rfl, rfl, leaf, typed⟩
  | otherwise =>
    obtain rfl := named ("ELSE", .otherwise) (by decide) role.symm
    exact form_otherwise id (role ▸ member) side
  | param =>
    obtain ⟨rfl, rfl⟩ := single "PARAM" (by decide) role rfl
    exact form_param id side
  | declaration =>
    obtain ⟨rfl, rfl⟩ := single "DECL" (by decide) role rfl
    exact form_declaration id side
  | assignment =>
    obtain ⟨rfl, rfl⟩ := single "ASSIGN" (by decide) role rfl
    exact form_assignment id side
  | call =>
    obtain ⟨rfl, rfl⟩ := single "CALL" (by decide) role rfl
    exact form_call id side
  | callStatement =>
    obtain ⟨rfl, rfl⟩ := single "CALLSTMT" (by decide) role rfl
    exact form_callStatement id side
  | conditional =>
    obtain ⟨rfl, rfl⟩ := single "IF" (by decide) role rfl
    exact form_conditional id side
  | loop =>
    obtain ⟨rfl, rfl⟩ := single "LOOP" (by decide) role rfl
    exact form_loop id side
  | ret =>
    obtain ⟨rfl, rfl⟩ := single "RETURN" (by decide) role rfl
    exact form_ret id side

theorem form_of_derivation (derivation : standardGrammar.IsDerivation tree) :
    (∀ token ∈ SyntaxTree.tokens tree, token.Fits names literals) →
    Form names literals (Role.ofSymbol (SyntaxTree.symbol tree)) (SyntaxTree.tokens tree)
      (normalizer.forest [tree]) := by
  induction derivation using Grammar.IsDerivation.induct with
  | leaf id name token =>
    intro fits
    rw [normalizer.forest_terminal id rfl, SyntaxTree.tokens_leaf] at *
    have here : token.Fits names literals := fits token (by simp)
    have leaf : IsLeaf token (.node id ⟨.terminal name token.category, some token⟩ []) :=
      ⟨id, name, rfl⟩
    show Form names literals (Role.ofCategory token.category) [token] _
    rcases Role.ofCategory_cases token.category with ⟨is, _⟩ | ⟨is, _⟩ | ⟨is, _⟩ | ⟨is, _⟩ | is
    all_goals rw [is]; exact ⟨token, _, rfl, rfl, leaf, is, here⟩
  | node id production children member symbols below ih =>
    intro fits
    rw [SyntaxTree.tokens_node _ _ rfl] at fits ⊢
    have fitting := Role.fits member
    -- The children have their forms, side by side as a body of the role has them.
    have side := @side_of_children (Form names literals) children fun child inside =>
      ih child inside fun token found =>
        fits token (mem_flatMap.mpr ⟨child, inside, found⟩)
    have body := fitting.bodies
    rw [← symbols, map_map] at body
    show Form names literals (Role.ofSymbol (.nonterminal production.lhs)) _ _
    cases wrapper : (Role.ofSymbol (.nonterminal production.lhs)).isWrapper with
    | true =>
      rw [normalizer.forest_wrapper id children (fitting.wrapper.trans wrapper)]
      exact form_wrapper wrapper body side
    | false =>
      rw [normalizer.forest_plain id children (fitting.wrapper.trans wrapper) rfl]
      exact form_closed id wrapper body fitting.named fitting.operand side

end Forms

end Language

end ThreeAddress

import ThreeAddress.Proofs.Source.Printing
import ThreeAddress.Proofs.Source.Reading

/-!
The derivations of expressions.

The grammar has a non-terminal for every level, and a tail for the operators of a level with their right operands.
So an operation that is written behind others of its level becomes the last of a chain, and the chain is read from the left.
-/

namespace ThreeAddress

open List

namespace Tree

variable {α : Type}

/-- Trees that differ in the numbers of their nodes only have the same root, and such trees below it. -/
theorem eq_node_of_unnumbered {other : Tree α} {id : Nat} {value : α} {children : List (Tree α)}
    (same : other.unnumbered = (node id value children).unnumbered) :
    ∃ number others, other = node number value others ∧
      others.map unnumbered = children.map unnumbered := by
  obtain ⟨number, root, others⟩ := other
  rw [unnumbered_node, unnumbered_node, node.injEq] at same
  obtain ⟨-, rfl, below⟩ := same
  exact ⟨number, others, rfl, below⟩

end Tree

namespace Language

open Source

/-- Tokens that spell an expression whose operations bind at least as tightly as a level. -/
inductive Phrase : Nat → List Token → Expression → Prop where
  | name {token : Token} (category : token.category = identifier) :
    Phrase 4 [token] (.name token.handle)
  | literal {token : Token} (role : Role.ofCategory token.category = .literal) :
    Phrase 4 [token] (.literal token.handle)
  | group {opening closing : Token} {tokens : List Token} {expression : Expression}
    (opens : opening.category = openParen) (closes : closing.category = closeParen)
    (inner : Phrase 0 tokens expression) :
    Phrase 4 (opening :: (tokens ++ [closing])) expression
  | binary {operation : BinaryOperation} {operator : Token} {before after : List Token}
    {left right : Expression} (is : operator.category = operation.category)
    (ofLeft : Phrase operation.leftLevel before left)
    (ofRight : Phrase operation.rightLevel after right) :
    Phrase operation.level (before ++ operator :: after) (.binary operation left right)
  | looser {level : Nat} {tokens : List Token} {expression : Expression}
    (tighter : Phrase (level + 1) tokens expression) : Phrase level tokens expression

variable {expression : Expression} {level : Nat} {tokens : List Token}

theorem Phrase.level_le (phrase : Phrase level tokens expression) : level ≤ 4 := by
  induction phrase with
  | name | literal | group => exact Nat.le_refl 4
  | @binary operation => cases operation <;> decide
  | looser _ ih => omega

/-- What binds tightly enough may be written where less is asked for. -/
theorem Phrase.weaken {least : Nat} (phrase : Phrase level tokens expression)
    (enough : least ≤ level) : Phrase least tokens expression := by
  induction level with
  | zero =>
    obtain rfl : least = 0 := by omega
    exact phrase
  | succ level ih =>
    -- The levels between are passed one by one.
    by_cases same : least = level + 1
    · exact same ▸ phrase
    · exact ih phrase.looser (by omega)

/-- Symbols that derive some tokens, in a way that leaves nodes with a property, whatever the numbers of the nodes are. -/
def LeavesAll (symbols : List Symbol) (tokens : List Token) (holds : List SyntaxTree → Prop) :
    Prop :=
  ∃ trees : List SyntaxTree, (∀ tree ∈ trees, standardGrammar.IsDerivation tree) ∧
    trees.map SyntaxTree.symbol = symbols ∧ trees.flatMap SyntaxTree.tokens = tokens ∧
    ∀ others, others.map Tree.unnumbered = trees.map Tree.unnumbered →
      holds (normalizer.forest others)

/-- A symbol that derives some tokens, in a way that leaves nodes with a property. -/
abbrev Leaves (symbol : Symbol) (tokens : List Token) (holds : List SyntaxTree → Prop) : Prop :=
  LeavesAll [symbol] tokens holds

section Leaves

variable {symbol : Symbol} {symbols : List Symbol} {tokens others : List Token}
  {holds rest : List SyntaxTree → Prop}

theorem LeavesAll.mono {weaker : List SyntaxTree → Prop} (leaves : LeavesAll symbols tokens holds)
    (implies : ∀ forest, holds forest → weaker forest) : LeavesAll symbols tokens weaker := by
  obtain ⟨trees, derivations, same, read, each⟩ := leaves
  exact ⟨trees, derivations, same, read, fun others equal => implies _ (each others equal)⟩

theorem LeavesAll.nil : LeavesAll [] [] fun forest => forest = [] := by
  refine ⟨[], by simp, rfl, rfl, fun others same => ?_⟩
  obtain rfl : others = [] := by simpa using same
  rfl

theorem LeavesAll.cons (first : Leaves symbol tokens holds)
    (further : LeavesAll symbols others rest) :
    LeavesAll (symbol :: symbols) (tokens ++ others) fun forest =>
      ∃ front back, forest = front ++ back ∧ holds front ∧ rest back := by
  obtain ⟨one, derivations, single, read, each⟩ := first
  obtain ⟨trees, below, same, others, every⟩ := further
  refine ⟨one ++ trees, ?_, by simp [single, same], by simp [read, others], ?_⟩
  · intro tree member
    rcases mem_append.mp member with inside | inside
    · exact derivations tree inside
    · exact below tree inside
  · intro found equal
    -- Trees that are equal up to numbers are split where these are.
    rw [map_append] at equal
    obtain ⟨front, back, rfl, left, right⟩ := map_eq_append_iff.mp equal
    exact ⟨_, _, normalizer.forest_append front back, each front left, every back right⟩

theorem leaves_word (name : Text) {token : Token} {category : Category}
    (same : token.category = category) :
    Leaves (.terminal name category) [token] fun forest =>
      ∃ tree, forest = [tree] ∧ IsLeaf token tree := by
  subst same
  refine ⟨[.node 0 { symbol := .terminal name token.category, token := some token } []], ?_, rfl,
    ?_, ?_⟩
  · simpa using Grammar.isDerivation_terminal 0 name rfl
  · simp [SyntaxTree.tokens_leaf]
  · intro others equal
    obtain ⟨other, rfl, single⟩ := map_eq_singleton_iff.mp equal
    obtain ⟨number, children, rfl, empty⟩ := Tree.eq_node_of_unnumbered single
    obtain rfl : children = [] := by simpa using empty
    exact ⟨_, normalizer.forest_terminal number rfl, number, name, rfl⟩

/-- A production of the language. -/
def Produces (name : Text) (body : List Symbol) : Prop :=
  ∃ production ∈ standardGrammar.productions, production.lhs = name ∧ production.body = body

instance (name : Text) (body : List Symbol) : Decidable (Produces name body) :=
  inferInstanceAs (Decidable (∃ production ∈ standardGrammar.productions, _ ∧ _))

variable {name : Text}

theorem leaves_body (produces : Produces name symbols) (inner : LeavesAll symbols tokens holds)
    {whole : List SyntaxTree → Prop}
    (above : ∀ number children, holds (normalizer.forest children) →
      whole (normalizer.forest [.node number { symbol := .nonterminal name } children])) :
    Leaves (.nonterminal name) tokens whole := by
  obtain ⟨production, member, rfl, body⟩ := produces
  obtain ⟨trees, derivations, same, read, each⟩ := inner
  refine ⟨[.node 0 { symbol := .nonterminal production.lhs } trees], ?_, rfl, ?_, ?_⟩
  · simpa using Grammar.isDerivation_nonterminal 0 member (same.trans body.symm) derivations
  · simpa [SyntaxTree.tokens_node] using read
  · intro others equal
    obtain ⟨other, rfl, single⟩ := map_eq_singleton_iff.mp equal
    obtain ⟨number, children, rfl, below⟩ := Tree.eq_node_of_unnumbered single
    exact above number children (each children below)

theorem leaves_wrapper (produces : Produces name symbols)
    (wrapper : normalizer.isWrapper (.nonterminal name) = true)
    (inner : LeavesAll symbols tokens holds) : Leaves (.nonterminal name) tokens holds := by
  refine leaves_body produces inner fun number children held => ?_
  rwa [normalizer.forest_wrapper number children wrapper]

theorem leaves_plain (produces : Produces name symbols)
    (plain : normalizer.isWrapper (.nonterminal name) = false)
    (inner : LeavesAll symbols tokens holds) :
    Leaves (.nonterminal name) tokens fun forest => ∃ number nodes, holds nodes ∧
      forest = normalizer.close number { symbol := .nonterminal name } nodes := by
  refine leaves_body produces inner fun number children held => ?_
  exact ⟨number, _, held, normalizer.forest_plain number children plain rfl⟩

end Leaves

/-- The non-terminal of a level. -/
def levelName : Nat → Text
  | 0 => "EXPR"
  | 1 => "REL"
  | 2 => "SUM"
  | 3 => "TERM"
  | _ => "FACT"

/-- The tail of a level. -/
def tailName : Nat → Text
  | 0 => "EXPR_T"
  | 1 => "REL_T"
  | 2 => "SUM_T"
  | _ => "TERM_T"

theorem expression_productions :
    (∀ level < 4, Produces (levelName level)
        [.nonterminal (levelName (level + 1)), .nonterminal (tailName level)] ∧
      Produces (tailName level) [] ∧ normalizer.isWrapper (.nonterminal (levelName level)) = false ∧
      normalizer.isWrapper (.nonterminal (tailName level)) = true) ∧
    (∀ operation ∈ BinaryOperation.all, Produces (tailName operation.level)
      (.terminal operation.text operation.category ::
        .nonterminal (levelName operation.rightLevel) ::
        if operation.isRelational then [] else [.nonterminal (tailName operation.level)])) ∧
    Produces "FACT" [.terminal "(" openParen, .nonterminal "EXPR", .terminal ")" closeParen] ∧
    Produces "FACT" [.terminal "id" identifier] ∧ Produces "FACT" [.terminal "const" constant] ∧
    Produces "FACT" [.terminal "true" trueWord] ∧ Produces "FACT" [.terminal "false" falseWord] := by
  decide +kernel

/-- Nodes that join an expression before them with their operands. -/
def JoinsAs (join : Expression → Expression) (forest : List SyntaxTree) : Prop :=
  ∀ left rest, Expression.readTail? left (forest ++ rest) = Expression.readTail? (join left) rest

section Levels

variable {level : Nat} {tokens others : List Token} {left right : Expression}
  {join : Expression → Expression}

theorem leaves_noTail (inside : level < 4) :
    Leaves (.nonterminal (tailName level)) [] (JoinsAs id) := by
  obtain ⟨_, empty, _, wrapper⟩ := expression_productions.1 level inside
  refine (leaves_wrapper empty wrapper .nil).mono ?_
  rintro _ rfl left rest
  rfl

theorem leaves_chain (inside : level < 4)
    (first : Leaves (.nonterminal (levelName (level + 1))) tokens (ReadsAs left))
    (tail : Leaves (.nonterminal (tailName level)) others (JoinsAs join)) :
    Leaves (.nonterminal (levelName level)) (tokens ++ others) (ReadsAs (join left)) := by
  obtain ⟨produces, _, plain, _⟩ := expression_productions.1 level inside
  have listed : levelName level ∈ Role.operandNames := by
    have each : ∀ level < 4, levelName level ∈ Role.operandNames := by decide
    exact each level inside
  -- The tail is a wrapper, so its operators and operands become children of this node.
  have whole := leaves_plain produces plain (first.cons (tail.cons .nil))
  rw [append_nil] at whole
  refine whole.mono ?_
  rintro _ ⟨number, _, ⟨front, _, rfl, operand, back, _, rfl, joins, rfl⟩, rfl⟩
  exact readsAs_chain number listed operand (joins left [])

/-- An operator with its right operand stands before what a tail may go on with. -/
theorem leaves_tail (operation : BinaryOperation) {operator : Token}
    (is : operator.category = operation.category)
    (operand : Leaves (.nonterminal (levelName operation.rightLevel)) tokens (ReadsAs right))
    (further : LeavesAll
      (if operation.isRelational then [] else [.nonterminal (tailName operation.level)])
      others (JoinsAs join)) :
    Leaves (.nonterminal (tailName operation.level)) (operator :: (tokens ++ others))
      (JoinsAs fun left => join (.binary operation left right)) := by
  have listed : operation ∈ BinaryOperation.all ∧ operation.level < 4 := by
    cases operation <;> decide
  have wrapper := (expression_productions.1 operation.level listed.2).2.2.2
  -- A comparison has no tail behind its operand, and every other operation has.
  have produces := expression_productions.2.1 operation listed.1
  have body := (leaves_word operation.text is).cons (operand.cons further)
  refine (leaves_wrapper produces wrapper body).mono ?_
  rintro _ ⟨_, _, rfl, ⟨leaf, rfl, isLeaf⟩, _, back, rfl, ⟨tree, rfl, _, read⟩, joins⟩ left rest
  have known : BinaryOperation.ofCategory? operator.category = some operation := by
    rw [is, operation.ofCategory?_category]
  simp only [nil_append, cons_append]
  rw [readTail?_step isLeaf known read, joins]

variable {token : Token}

theorem leaves_name (category : token.category = identifier) :
    Leaves (.nonterminal "FACT") [token] (ReadsAs (.name token.handle)) := by
  have produces := expression_productions.2.2.2.1
  refine (leaves_plain produces (by decide) ((leaves_word "id" category).cons .nil)).mono ?_
  rintro _ ⟨number, _, ⟨_, _, rfl, ⟨leaf, rfl, isLeaf⟩, rfl⟩, rfl⟩
  exact readsAs_name isLeaf category

theorem leaves_literal (role : Role.ofCategory token.category = .literal) :
    Leaves (.nonterminal "FACT") [token] (ReadsAs (.literal token.handle)) := by
  -- Each of the three words for literals has a body of its own.
  have written : ∃ name, Produces "FACT" [.terminal name token.category] := by
    obtain ⟨constants, truths, falsities⟩ := expression_productions.2.2.2.2
    rcases Role.isLiteral_of_role role with is | is | is
    · exact ⟨_, is ▸ constants⟩
    · exact ⟨_, is ▸ truths⟩
    · exact ⟨_, is ▸ falsities⟩
  obtain ⟨name, produces⟩ := written
  refine (leaves_plain produces (by decide) ((leaves_word name rfl).cons .nil)).mono ?_
  rintro _ ⟨number, _, ⟨_, _, rfl, ⟨leaf, rfl, isLeaf⟩, rfl⟩, rfl⟩
  exact readsAs_literal isLeaf role

theorem leaves_group {opening closing : Token} (opens : opening.category = openParen)
    (closes : closing.category = closeParen)
    (inner : Leaves (.nonterminal "EXPR") tokens (ReadsAs left)) :
    Leaves (.nonterminal "FACT") (opening :: (tokens ++ [closing])) (ReadsAs left) := by
  have body := (leaves_word "(" opens).cons (inner.cons ((leaves_word ")" closes).cons .nil))
  refine (leaves_plain expression_productions.2.2.1 (by decide) body).mono ?_
  rintro _ ⟨number, _, ⟨_, _, rfl, ⟨first, rfl, isFirst⟩, _, _, rfl, ⟨tree, rfl, operand, read⟩,
    _, _, rfl, ⟨last, rfl, isLast⟩, rfl⟩, rfl⟩
  refine ⟨tree, ?_, operand, read⟩
  exact close_group number _ isFirst opens isLast closes

end Levels

/-- An expression that may be the first of a chain of a level. -/
def Continues (level : Nat) (tokens : List Token) (left : Expression) : Prop :=
  ∀ others join, Leaves (.nonterminal (tailName level)) others (JoinsAs join) →
    Leaves (.nonterminal (levelName level)) (tokens ++ others) (ReadsAs (join left))

theorem Continues.ends (continues : Continues level tokens expression) (inside : level < 4) :
    Leaves (.nonterminal (levelName level)) tokens (ReadsAs expression) := by
  have whole := continues [] id (leaves_noTail inside)
  rwa [append_nil] at whole

/--
A phrase of a level is derived from the non-terminal of the level, and it reads as its expression.

Where a level may be chained, the phrase may also stand at the front of a longer chain.
-/
theorem Phrase.leaves (phrase : Phrase level tokens expression) :
    Leaves (.nonterminal (levelName level)) tokens (ReadsAs expression) ∧
      (level < 4 → level ≠ 1 → Continues level tokens expression) := by
  induction phrase with
  | name category => exact ⟨leaves_name category, fun inside => absurd inside (by decide)⟩
  | literal role => exact ⟨leaves_literal role, fun inside => absurd inside (by decide)⟩
  | group opens closes _ ih =>
    exact ⟨leaves_group opens closes ih.1, fun inside => absurd inside (by decide)⟩
  | looser tighter ih =>
    -- A phrase of the next level is the first operand of this one.
    have inside := tighter.level_le
    have continues : Continues _ _ _ := fun others join tail => leaves_chain inside ih.1 tail
    exact ⟨continues.ends inside, fun _ _ => continues⟩
  | @binary operation operator before after left right is ofLeft ofRight ihLeft ihRight =>
    have inside : operation.level < 4 := by cases operation <;> decide
    cases kind : operation.isRelational with
    | true =>
      -- A comparison is all of its tail, and its left operand is of the next level.
      have alone : operation.level = 1 := by
        revert kind
        cases operation <;> decide
      have nothing : LeavesAll
          (if operation.isRelational then [] else [.nonterminal (tailName operation.level)]) []
          (JoinsAs id) := by
        rw [if_pos kind]
        refine LeavesAll.nil.mono ?_
        rintro _ rfl left rest
        rfl
      have tail := leaves_tail operation is ihRight.1 nothing
      have first := ihLeft.1
      rw [BinaryOperation.leftLevel, if_pos kind] at first
      refine ⟨?_, fun _ chained => absurd alone chained⟩
      simpa using leaves_chain inside first tail
    | false =>
      -- The left operand is the front of the chain that goes on with this operation.
      have chained : operation.level ≠ 1 := by
        revert kind
        cases operation <;> decide
      have notRelational : ¬operation.isRelational = true := by simp [kind]
      have front := ihLeft.2
      rw [BinaryOperation.leftLevel, if_neg notRelational] at front
      have continues : Continues operation.level (before ++ operator :: after)
          (.binary operation left right) := by
        intro others join tail
        have further : LeavesAll
            (if operation.isRelational then [] else [.nonterminal (tailName operation.level)])
            others (JoinsAs join) := by rwa [if_neg notRelational]
        have whole := front inside chained _ _ (leaves_tail operation is ihRight.1 further)
        simpa using whole
      exact ⟨continues.ends inside, fun _ _ => continues⟩

end Language

end ThreeAddress

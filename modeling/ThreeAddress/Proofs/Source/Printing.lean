import ThreeAddress.Proofs.Source.Semantics
import ThreeAddress.Proofs.Source.Typing
import ThreeAddress.Proofs.Symbols.Table

/-!
Expressions as they are written.

An operation binds as tightly as its level says, and operations of one level are read from the left.
Parentheses stand around an operation that would be read differently without them, and they may stand around anything.
-/

namespace ThreeAddress

namespace BinaryOperation

/-- How tightly an operation binds. -/
def level : BinaryOperation → Nat
  | and | or => 0
  | less | greater | lessEq | greaterEq | equal | notEqual => 1
  | add | sub => 2
  | mul | div => 3

/-- How tightly its left operand must bind. Comparisons are not chained. -/
def leftLevel (operation : BinaryOperation) : Nat :=
  if operation.isRelational then operation.level + 1 else operation.level

/-- How tightly its right operand must bind. -/
def rightLevel (operation : BinaryOperation) : Nat := operation.level + 1

def category (operation : BinaryOperation) : Category := 28 + all.idxOf operation

theorem ofCategory?_category (operation : BinaryOperation) :
    ofCategory? operation.category = some operation := by
  cases operation <;> decide

end BinaryOperation

/-- The category of the word for a type. -/
def ValueType.category : ValueType → Category
  | untyped => Category.epsilon
  | int => 17
  | float => 18
  | char => 19
  | boolean => 20

namespace Language

/-- A word of a text with its kind, unless no rule matches it. -/
abbrev Word := Text × Option WordKind

/-- The words of some pieces, which are all but the blanks. -/
def wordsOf (pieces : List (Piece WordKind)) : List Word :=
  (pieces.filter fun piece => piece.kind != some .blank).map fun piece => (piece.text, piece.kind)

def words (text : Text) : List Word := wordsOf (lexicon.pieces text)

/-- The word of a category that is spelled in one way. -/
def Word.fixed (category : Category) : Word := (registry.nameOf category, some (.fixed category))

def Word.grouped (inner : List Word) : List Word :=
  Word.fixed openParen :: (inner ++ [Word.fixed closeParen])

end Language

namespace Source

open ThreeAddress.Language

/-- A literal as it is written: a number, a character between quotes, or a truth value. -/
inductive Literal where
  | number (text : Text)
  | character (text : Text)
  | truth (value : Bool)
deriving DecidableEq, Repr

namespace Literal

def category : Literal → Category
  | truth value => if value then trueWord else falseWord
  | _ => constant

def word : Literal → Word
  | number text => (text, some .number)
  | character text => ("'" ++ text ++ "'", some .character)
  | truth value => Word.fixed (if value then trueWord else falseWord)

/-- Whether the word for a literal is one word of the language. -/
def IsWord : Literal → Prop
  | number text => numberRegex.accepts text = true
  | character text => 0x27 ∉ text
  | truth _ => True

instance (spelling : Literal) : Decidable spelling.IsWord :=
  match spelling with
  | number text => inferInstanceAs (Decidable (numberRegex.accepts text = true))
  | character text => inferInstanceAs (Decidable (0x27 ∉ text))
  | truth _ => inferInstanceAs (Decidable True)

/-- The constant that a literal stands for. -/
def read : Literal → Except Diagnostic Constant
  | number text => Constant.ofLiteral text false
  | character text => Constant.ofLiteral text true
  | truth value => Constant.ofLiteral (if value then "true" else "false") false

end Literal

/-- An expression as it is written. Every pair of parentheses that it does not need is a node of its own. -/
inductive Written where
  | name (text : Text)
  | literal (spelling : Literal) (constant : Constant) (isWord : spelling.IsWord)
    (reads : spelling.read = .ok constant)
  | binary (operation : BinaryOperation) (left right : Written)
  | group (inner : Written)

/-- The variables of a program, in the order of their declarations. -/
structure Declarations where
  entries : List (Text × ValueType)
  spelled : ∀ entry ∈ entries, nameRegex.accepts entry.1 = true
  typed : ∀ entry ∈ entries, entry.2 ≠ .untyped
  distinct : (entries.map Prod.fst).Nodup

/-- The handle of a variable. -/
def Declarations.handle (declared : Declarations) (name : Text) : Handle :=
  ((declared.entries.map Prod.fst).idxOf name : Nat)

namespace Written

/-- The words of an expression where operations must bind at least as tightly as a level. -/
def words : Written → Nat → List Word
  | name text, _ => [(text, some .name)]
  | literal spelling _ _ _, _ => [spelling.word]
  | binary operation left right, least =>
    let inner := left.words operation.leftLevel ++
      Word.fixed operation.category :: right.words operation.rightLevel
    if least ≤ operation.level then inner else Word.grouped inner
  | group inner, _ => Word.grouped (inner.words 0)

/-- The operations of an expression in the order of their evaluation. -/
def operations : Written → List BinaryOperation
  | name _ => []
  | literal .. => []
  | binary operation left right => left.operations ++ right.operations ++ [operation]
  | group inner => inner.operations

/-- The value of an expression. -/
def eval {V : Type} (apply : BinaryOperation → V → V → V) (names : Text → V)
    (constants : Constant → V) : Written → V
  | name text => names text
  | literal _ constant _ _ => constants constant
  | binary operation left right =>
    apply operation (left.eval apply names constants) (right.eval apply names constants)
  | group inner => inner.eval apply names constants

/-- The type of an expression over declared variables. -/
inductive HasType (declared : Declarations) : Written → ValueType → Prop where
  | name {text : Text} {type : ValueType} (known : (text, type) ∈ declared.entries) :
    HasType declared (.name text) type
  | literal {spelling : Literal} {constant : Constant} {isWord : spelling.IsWord}
    {reads : spelling.read = .ok constant} :
    HasType declared (.literal spelling constant isWord reads) constant.type
  | binary {operation : BinaryOperation} {left right : Written} {operand result : ValueType}
    (ofLeft : HasType declared left operand) (ofRight : HasType declared right operand)
    (operates : operation.Operates operand result) :
    HasType declared (.binary operation left right) result
  | group {inner : Written} {type : ValueType} (ofInner : HasType declared inner type) :
    HasType declared (.group inner) type

end Written

def declarationWords (entry : Text × ValueType) : List Word :=
  [Word.fixed variableWord, Word.fixed entry.2.category, (entry.1, some .name), Word.fixed 26]

/-- The words of a program that assigns an expression to a variable. -/
def assignmentWords (declared : Declarations) (target : Text) (value : Written) : List Word :=
  Word.fixed startWord :: (declared.entries.flatMap declarationWords ++
    (target, some .name) :: Word.fixed 27 :: (value.words 0 ++ [Word.fixed 26, Word.fixed endWord]))

/-- The operations of an expression in the order of their evaluation. -/
def Expression.operations : Expression → List BinaryOperation
  | name _ => []
  | literal _ => []
  | binary operation left right => left.operations ++ right.operations ++ [operation]

/-- An expression as it is written and the same expression in terms of tables. -/
inductive Resolves (declared : Declarations) (constants : ConstantTable) :
    Written → Expression → Prop where
  | name {text : Text} : Resolves declared constants (.name text) (.name (declared.handle text))
  | literal {spelling : Literal} {constant : Constant} {isWord : spelling.IsWord}
    {reads : spelling.read = .ok constant} {handle : Handle}
    (found : constants.lookup? handle = some constant) :
    Resolves declared constants (.literal spelling constant isWord reads) (.literal handle)
  | binary {operation : BinaryOperation} {left right : Written} {first second : Expression}
    (ofLeft : Resolves declared constants left first)
    (ofRight : Resolves declared constants right second) :
    Resolves declared constants (.binary operation left right) (.binary operation first second)
  | group {inner : Written} {expression : Expression}
    (ofInner : Resolves declared constants inner expression) :
    Resolves declared constants (.group inner) expression

namespace Resolves

variable {declared : Declarations} {constants : ConstantTable} {written : Written}
  {expression : Expression}

section

variable (resolves : Resolves declared constants written expression)
include resolves

theorem later {after : ConstantTable}
    (grown : constants.constants <+: after.constants) :
    Resolves declared after written expression := by
  induction resolves with
  | name => exact .name
  | literal found => exact .literal (ConstantTable.lookup?_of_prefix grown found)
  | binary _ _ ihLeft ihRight => exact .binary ihLeft ihRight
  | group _ ih => exact .group ih

theorem operations_eq :
    expression.operations = written.operations := by
  induction resolves with
  | name => rfl
  | literal => rfl
  | binary _ _ ihLeft ihRight => rw [Expression.operations, Written.operations, ihLeft, ihRight]
  | group _ ih => exact ih

theorem eval_eq {V : Type}
    {meaning : Interpretation V} {values : Constant → V}
    (literals : ∀ handle constant, constants.lookup? handle = some constant →
      meaning.literal handle = values constant) (store : Store V) :
    expression.eval meaning store =
      written.eval meaning.apply (fun name => store (declared.handle name)) values := by
  induction resolves with
  | name => rfl
  | literal found => exact literals _ _ found
  | binary _ _ ihLeft ihRight => simp only [Expression.eval, Written.eval, ihLeft, ihRight]
  | group _ ih => exact ih

theorem hasType {type : ValueType}
    (typed : written.HasType declared type) {environment : Environment}
    (pool : environment.constants = constants)
    (names : ∀ text type, (text, type) ∈ declared.entries → ∃ entry,
      environment.symbols.lookup? (declared.handle text) = some (.var entry) ∧
        entry.type = type) : expression.HasType environment type := by
  induction resolves generalizing type with
  | name =>
    cases typed with
    | name known =>
      obtain ⟨entry, found, rfl⟩ := names _ _ known
      exact .name found
  | literal found =>
    cases typed with
    | literal => exact .literal (pool ▸ found)
  | binary _ _ ihLeft ihRight =>
    cases typed with
    | binary ofLeft ofRight operates => exact .binary (ihLeft ofLeft) (ihRight ofRight) operates
  | group _ ih =>
    cases typed with
    | group ofInner => exact ih ofInner

end

end Resolves

end Source

end ThreeAddress

import ThreeAddress.Proofs.Source.Syntax
import Mathlib.Data.List.Forall2

/-!
The types of a program.

Names and literals have the types that the tables give them, and there are no conversions.
-/

namespace ThreeAddress

/-- The types of an operation: that of both its operands, and that of its value. -/
inductive BinaryOperation.Operates : BinaryOperation → ValueType → ValueType → Prop where
  | logical {operation : BinaryOperation} (joins : operation ∈ [.and, .or]) :
    Operates operation .boolean .boolean
  | comparison {operation : BinaryOperation} {type : ValueType}
    (compares : operation ∈ [.less, .greater, .lessEq, .greaterEq, .equal, .notEqual]) :
    Operates operation type .boolean
  | arithmetic {operation : BinaryOperation} {type : ValueType}
    (computes : operation ∈ [.add, .sub, .mul, .div]) (number : type ≠ .boolean) :
    Operates operation type type

namespace Source

/-- The type of an expression. A function has none. -/
inductive Expression.HasType (environment : Environment) : Expression → ValueType → Prop where
  | name {handle : Handle} {entry : VariableEntry}
    (found : environment.symbols.lookup? handle = some (.var entry)) :
    HasType environment (.name handle) entry.type
  | literal {handle : Handle} {constant : Constant}
    (found : environment.constants.lookup? handle = some constant) :
    HasType environment (.literal handle) constant.type
  | binary {operation : BinaryOperation} {left right : Expression} {operand result : ValueType}
    (ofLeft : HasType environment left operand) (ofRight : HasType environment right operand)
    (operates : operation.Operates operand result) :
    HasType environment (.binary operation left right) result

def Expression.WellTyped (environment : Environment) (expression : Expression) : Prop :=
  ∃ type, expression.HasType environment type

/-- A call of a function with an argument of the right type for each of its parameters. -/
structure Call.WellTyped (environment : Environment) (call : Call) (callee : FunctionEntry) :
    Prop where
  isFunction : environment.symbols.lookup? call.function = some (.func callee)
  arguments : List.Forall₂ (fun argument param => ∃ entry,
    environment.symbols.lookup? param = some (.var entry) ∧
      argument.HasType environment entry.type) call.arguments callee.params

/-- A statement whose parts have the types that are needed there, in a block that returns values of the given type. -/
def Statement.WellTyped (environment : Environment) (returns : ValueType) : Statement → Prop
  | skip => True
  | assign target value => ∃ entry, environment.symbols.lookup? target = some (.var entry) ∧
      value.HasType environment entry.type
  | assignCall target source => ∃ entry callee,
      environment.symbols.lookup? target = some (.var entry) ∧
      source.WellTyped environment callee ∧ callee.returns = entry.type
  | call source => ∃ callee, source.WellTyped environment callee
  | ret value => value.HasType environment returns
  | seq first second => first.WellTyped environment returns ∧ second.WellTyped environment returns
  | cond test yes no => test.HasType environment .boolean ∧ yes.WellTyped environment returns ∧
      no.WellTyped environment returns
  | loop test body => test.HasType environment .boolean ∧ body.WellTyped environment returns

/-- A function whose body returns values of the declared type. -/
def Function.WellTyped (environment : Environment) (function : Function) : Prop :=
  ∃ entry, environment.symbols.lookup? function.handle = some (.func entry) ∧
    function.body.WellTyped environment entry.returns

/-- A well-typed program. Its main block returns integers. -/
structure Program.WellTyped (environment : Environment) (program : Program) : Prop where
  functions : ∀ function ∈ program.functions, function.WellTyped environment
  main : program.main.WellTyped environment .int

end Source

namespace BinaryOperation

theorem kinds (operation : BinaryOperation) :
    (operation ∈ [.and, .or] ∧ operation.isLogical = true) ∨
      (operation ∈ [.less, .greater, .lessEq, .greaterEq, .equal, .notEqual] ∧
        operation.isLogical = false ∧ operation.isRelational = true) ∨
      (operation ∈ [.add, .sub, .mul, .div] ∧ operation.isLogical = false ∧
        operation.isRelational = false) := by
  cases operation <;> decide

variable {operation : BinaryOperation}

theorem resultType_eq_ok {left right result : ValueType} :
    operation.resultType left right = .ok result ↔
      left = right ∧ operation.Operates left result := by
  by_cases same : left = right
  · subst same
    simp only [resultType, ne_eq, not_true_eq_false, if_false, true_and]
    rcases operation.kinds with ⟨joins, logical⟩ | ⟨compares, notLogical, relational⟩ |
      ⟨computes, notLogical, notRelational⟩
    · rw [if_pos logical]
      constructor
      · intro found
        split at found
        · next isBoolean =>
          cases found
          subst isBoolean
          exact .logical joins
        · cases found
      · intro operates
        cases operates with
        | logical => rfl
        | comparison compares => cases operation <;> simp at joins compares
        | arithmetic computes => cases operation <;> simp at joins computes
    · rw [if_neg (by simp [notLogical]), if_pos relational]
      constructor
      · intro found
        cases found
        exact .comparison compares
      · intro operates
        cases operates with
        | logical joins => rfl
        | comparison => rfl
        | arithmetic computes => cases operation <;> simp at compares computes
    · rw [if_neg (by simp [notLogical]), if_neg (by simp [notRelational])]
      constructor
      · intro found
        split at found
        · cases found
        · next number =>
          cases found
          exact .arithmetic computes number
      · intro operates
        cases operates with
        | logical joins => cases operation <;> simp at joins computes
        | comparison compares => cases operation <;> simp at compares computes
        | arithmetic _ number => rw [if_neg number]
  · simp [resultType, same]

theorem Operates.unique {operand first second : ValueType} (one : operation.Operates operand first)
    (two : operation.Operates operand second) : first = second :=
  Except.ok.inj ((resultType_eq_ok.mpr ⟨rfl, one⟩).symm.trans (resultType_eq_ok.mpr ⟨rfl, two⟩))

end BinaryOperation

namespace Source

variable {environment : Environment}

/-- An expression has at most one type. -/
theorem Expression.HasType.unique {expression : Expression} {first second : ValueType}
    (one : expression.HasType environment first) (two : expression.HasType environment second) :
    first = second := by
  induction one generalizing second with
  | name found =>
    cases two with
    | name other =>
      cases found.symm.trans other
      rfl
  | literal found =>
    cases two with
    | literal other =>
      cases found.symm.trans other
      rfl
  | binary _ _ operates ihLeft _ =>
    cases two with
    | binary ofLeft _ others =>
      cases ihLeft ofLeft
      exact operates.unique others

theorem Call.WellTyped.argument {call : Call} {callee : FunctionEntry}
    (typed : call.WellTyped environment callee) :
    ∀ argument ∈ call.arguments, argument.WellTyped environment := by
  obtain ⟨-, fits⟩ := typed
  generalize call.arguments = arguments, callee.params = params at fits
  induction fits with
  | nil => simp
  | cons first _ ih =>
    obtain ⟨entry, -, hasType⟩ := first
    intro argument member
    rcases List.mem_cons.mp member with rfl | later
    · exact ⟨entry.type, hasType⟩
    · exact ih argument later

/-- What an operation has in common with its left side holds of the start of a chain. -/
theorem left_of_readTail {good : Expression → Prop} {joined : Expression}
    (ofLeft : ∀ {operation left right}, good (.binary operation left right) → good left) :
    ∀ {trees : List SyntaxTree} {left : Expression}, Expression.readTail? left trees = some joined →
      good joined → good left
  | [], left, read, holds => by
    cases read
    exact holds
  | [_], _, read, _ => by simp [Expression.readTail?] at read
  | operator :: operand :: rest, left, read, holds => by
    simp only [Expression.readTail?, Option.bind_eq_bind, Option.bind_eq_some_iff] at read
    obtain ⟨operation, _, right, _, others⟩ := read
    exact ofLeft (left_of_readTail ofLeft others holds)

theorem Expression.WellTyped.left {operation : BinaryOperation} {left right : Expression}
    (typed : (binary operation left right).WellTyped environment) : left.WellTyped environment := by
  obtain ⟨type, typed⟩ := typed
  cases typed with
  | binary ofLeft => exact ⟨_, ofLeft⟩

end Source

end ThreeAddress

import ThreeAddress.Proofs.Source.Syntax

/-!
What programs do.

A program changes one store of values, for any meaning of its operations and its literals.
Running a statement ends behind it, in a return, or stuck in a function that ends without a return.
-/

namespace ThreeAddress

/-- The meaning of operations and literals, and which values count as true. -/
structure Interpretation (V : Type) where
  apply : BinaryOperation → V → V → V
  literal : Handle → V
  holds : V → Bool

/-- The values of variables. -/
abbrev Store (V : Type) := Handle → V

namespace Store

variable {V : Type}

/-- Gives a variable a value. -/
def set (store : Store V) (target : Handle) (value : V) : Store V :=
  fun handle => if handle = target then value else store handle

@[simp]
theorem set_self (store : Store V) (target : Handle) (value : V) :
    store.set target value target = value := if_pos rfl

theorem set_of_ne (store : Store V) {target handle : Handle} (value : V)
    (other : handle ≠ target) : store.set target value handle = store handle := if_neg other

/-- Gives variables their values all at once. -/
def bind (store : Store V) (targets : List Handle) (values : List V) : Store V :=
  fun handle => ((targets.zip values).lookup handle).getD (store handle)

end Store

namespace Source

variable {V : Type}

/-- The value of an expression. Operands are evaluated from left to right, and nothing changes. -/
def Expression.eval (meaning : Interpretation V) (store : Store V) : Expression → V
  | name handle => store handle
  | literal handle => meaning.literal handle
  | binary operation left right =>
    meaning.apply operation (left.eval meaning store) (right.eval meaning store)

/-- How a statement ends. -/
inductive Outcome where
  /-- Behind the statement. -/
  | normal
  | returned
  /-- In a function that ended without a return. -/
  | stuck
deriving DecidableEq, Repr

def Program.function? (program : Program) (handle : Handle) : Option Function :=
  program.functions.find? fun function => function.handle == handle

/-- The store in which the body of a function starts: its parameters have the values of the arguments. -/
def Call.enter (meaning : Interpretation V) (call : Call) (function : Function)
    (store : Store V) : Store V :=
  store.bind function.params (call.arguments.map (Expression.eval meaning store))

section

variable (program : Program) (slot : Handle) (meaning : Interpretation V)

/-- Running a statement from one store to another. Results of functions are passed in a variable. -/
inductive Statement.Runs : Store V → Statement → Outcome → Store V → Prop where
  | skip {store : Store V} : Runs store .skip .normal store
  | assign {store : Store V} {target : Handle} {value : Expression} :
    Runs store (.assign target value) .normal (store.set target (value.eval meaning store))
  | ret {store : Store V} {value : Expression} :
    Runs store (.ret value) .returned (store.set slot (value.eval meaning store))
  | call {store after : Store V} {call : Call} {function : Function}
    (known : program.function? call.function = some function)
    (body : Runs (call.enter meaning function store) function.body .returned after) :
    Runs store (.call call) .normal after
  | callStuck {store after : Store V} {call : Call} {function : Function} {outcome : Outcome}
    (known : program.function? call.function = some function)
    (body : Runs (call.enter meaning function store) function.body outcome after)
    (endless : outcome ≠ .returned) : Runs store (.call call) .stuck after
  | assignCall {store after : Store V} {target : Handle} {call : Call} {function : Function}
    (known : program.function? call.function = some function)
    (body : Runs (call.enter meaning function store) function.body .returned after) :
    Runs store (.assignCall target call) .normal (after.set target (after slot))
  | assignCallStuck {store after : Store V} {target : Handle} {call : Call} {function : Function}
    {outcome : Outcome} (known : program.function? call.function = some function)
    (body : Runs (call.enter meaning function store) function.body outcome after)
    (endless : outcome ≠ .returned) : Runs store (.assignCall target call) .stuck after
  | seq {store middle after : Store V} {first second : Statement} {outcome : Outcome}
    (ofFirst : Runs store first .normal middle) (ofSecond : Runs middle second outcome after) :
    Runs store (.seq first second) outcome after
  | seqLeft {store after : Store V} {first second : Statement} {outcome : Outcome}
    (ofFirst : Runs store first outcome after) (left : outcome ≠ .normal) :
    Runs store (.seq first second) outcome after
  | condTrue {store after : Store V} {test : Expression} {yes no : Statement} {outcome : Outcome}
    (holds : meaning.holds (test.eval meaning store) = true)
    (ofYes : Runs store yes outcome after) : Runs store (.cond test yes no) outcome after
  | condFalse {store after : Store V} {test : Expression} {yes no : Statement} {outcome : Outcome}
    (fails : meaning.holds (test.eval meaning store) = false)
    (ofNo : Runs store no outcome after) : Runs store (.cond test yes no) outcome after
  | loopDone {store : Store V} {test : Expression} {body : Statement}
    (fails : meaning.holds (test.eval meaning store) = false) :
    Runs store (.loop test body) .normal store
  | loopNext {store middle after : Store V} {test : Expression} {body : Statement}
    {outcome : Outcome} (holds : meaning.holds (test.eval meaning store) = true)
    (ofBody : Runs store body .normal middle)
    (again : Runs middle (.loop test body) outcome after) :
    Runs store (.loop test body) outcome after
  | loopLeft {store after : Store V} {test : Expression} {body : Statement} {outcome : Outcome}
    (holds : meaning.holds (test.eval meaning store) = true)
    (ofBody : Runs store body outcome after) (left : outcome ≠ .normal) :
    Runs store (.loop test body) outcome after

end

namespace Program

/-- A program that runs to its end, or to a return of its main block. -/
def Terminates (program : Program) (slot : Handle) (meaning : Interpretation V)
    (store after : Store V) : Prop :=
  ∃ outcome, outcome ≠ .stuck ∧ program.main.Runs program slot meaning store outcome after

/-- A program that runs into the end of a function without a return. -/
def GetsStuck (program : Program) (slot : Handle) (meaning : Interpretation V)
    (store : Store V) : Prop :=
  ∃ after, program.main.Runs program slot meaning store .stuck after

end Program

/-- The functions that a statement calls itself. -/
def Statement.callees : Statement → List Handle
  | skip => []
  | assign .. => []
  | assignCall _ source => [source.function]
  | call source => [source.function]
  | ret _ => []
  | seq first second => first.callees ++ second.callees
  | cond _ yes no => yes.callees ++ no.callees
  | loop _ body => body.callees

/-- No function of a program calls itself in its own body. -/
def Program.NoSelfCalls (program : Program) : Prop :=
  ∀ function ∈ program.functions, function.handle ∉ function.body.callees

end Source

end ThreeAddress

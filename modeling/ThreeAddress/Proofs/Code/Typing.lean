import ThreeAddress.Proofs.Code.Execution
import ThreeAddress.Proofs.Code.Statement

/-!
The types of code.

Code is typed instruction by instruction, with a type for the results of the block that an instruction belongs to.
The code of a well-typed statement is typed, since its temporaries have the types of the expressions that they stand for.
-/

namespace ThreeAddress

open Source List

/-- The slot for results. -/
def Value.IsSlot (environment : Environment) (value : Value) : Prop :=
  ∃ slot, environment.symbols.returnSlot = some slot ∧ value = .symbol slot

/--
An instruction whose operands are in the tables and fit together.

The slot for results has no type of its own, so what is moved to it or from it depends on the code around.
-/
def Instruction.WellTyped (environment : Environment) : Instruction → Prop
  | .binary operation result left right => ∃ operand type,
      left.HasType environment operand ∧ right.HasType environment operand ∧
        operation.Operates operand type ∧ (Value.symbol result).HasType environment type ∧
        environment.symbols.Scratch result
  | .ifFalse condition _ => condition.HasType environment .boolean
  | .move target source => (Value.symbol target).Known environment ∧ source.Known environment ∧
      (¬ (Value.symbol target).IsSlot environment → ¬ source.IsSlot environment →
        ∃ type, (Value.symbol target).HasType environment type ∧ source.HasType environment type)
  | _ => True

/-- An instruction that moves nothing to the slot or from it. -/
def Instruction.SparesSlot (environment : Environment) : Instruction → Prop
  | .move target source => ¬ (Value.symbol target).IsSlot environment ∧ ¬ source.IsSlot environment
  | _ => True

theorem Instruction.wellTyped_move {environment : Environment} {target : Handle} {source : Value}
    {type : ValueType} (ofTarget : (Value.symbol target).HasType environment type)
    (ofSource : source.HasType environment type) :
    (Instruction.move target source).WellTyped environment :=
  ⟨⟨type, ofTarget⟩, ⟨type, ofSource⟩, fun _ _ => ⟨type, ofTarget, ofSource⟩⟩

/-- The type of results behind an instruction, which a label that some block begins with changes. -/
def Instruction.returns (results : Nat → Option ValueType) (returns : ValueType) :
    Instruction → ValueType
  | .label place => (results place).getD returns
  | _ => returns

namespace Code

/-- The type of results behind code: that of the block which was begun last. -/
def returns (results : Nat → Option ValueType) (returns : ValueType) (code : Code) : ValueType :=
  code.foldl (Instruction.returns results) returns

/--
Well-typed code, for the tables of a program and the types of results that belong to labels.

Code begins in the main block, which returns integers.
-/
structure WellTyped (environment : Environment) (results : Nat → Option ValueType) (code : Code) :
    Prop where
  each : ∀ instruction ∈ code, instruction.WellTyped environment
  /-- What is moved to the slot is returned at once, and has the type of results of its block. -/
  returned : ∀ place target source, code[place]? = some (.move target source) →
    (Value.symbol target).IsSlot environment → code[place + 1]? = some .ret ∧
      source.HasType environment (Code.returns results .int (code.take place))
  /-- What is moved from the slot was just returned, and has the type of results of the callee. -/
  received : ∀ place target source, code[place]? = some (.move target source) →
    source.IsSlot environment → ∃ before label type, place = before + 1 ∧
      code[before]? = some (.call label) ∧ results label = some type ∧
      (Value.symbol target).HasType environment type

/-- Code that is typed from the front, given the type of results in front of it. -/
inductive Typed (environment : Environment) (results : Nat → Option ValueType) :
    ValueType → Code → Prop where
  | nil {returns : ValueType} : Typed environment results returns []
  | cons {returns : ValueType} {instruction : Instruction} {code : Code}
    (here : instruction.WellTyped environment) (spares : instruction.SparesSlot environment)
    (rest : Typed environment results (instruction.returns results returns) code) :
    Typed environment results returns (instruction :: code)
  | receive {returns type : ValueType} {place : Nat} {target slot : Handle} {code : Code}
    (known : results place = some type) (isSlot : environment.symbols.returnSlot = some slot)
    (ofSlot : (Value.symbol slot).Known environment)
    (ofTarget : (Value.symbol target).HasType environment type)
    (notInto : ¬ (Value.symbol target).IsSlot environment)
    (rest : Typed environment results returns code) :
    Typed environment results returns (.call place :: .move target (.symbol slot) :: code)
  | ret {returns : ValueType} {slot : Handle} {source : Value} {code : Code}
    (isSlot : environment.symbols.returnSlot = some slot)
    (ofSlot : (Value.symbol slot).Known environment)
    (ofSource : source.HasType environment returns) (notFrom : ¬ source.IsSlot environment)
    (rest : Typed environment results returns code) :
    Typed environment results returns (.move slot source :: .ret :: code)

variable {environment : Environment} {results : Nat → Option ValueType} {returns : ValueType}
  {code : Code} {first second : Code}

/-- Typed code may be continued. -/
theorem Typed.append (one : Typed environment results returns first)
    (two : Typed environment results (Code.returns results returns first) second) :
    Typed environment results returns (first ++ second) := by
  induction one with
  | nil => exact two
  | cons here spares _ ih => exact .cons here spares (ih two)
  | receive known isSlot ofSlot ofTarget notInto _ ih =>
    exact .receive known isSlot ofSlot ofTarget notInto (ih two)
  | ret isSlot ofSlot ofSource notFrom _ ih => exact .ret isSlot ofSlot ofSource notFrom (ih two)

/-- Code of a block whose operands are known, with no label that another block begins with. -/
def Inside (environment : Environment) (results : Nat → Option ValueType) (returns : ValueType)
    (code : Code) : Prop :=
  ∀ instruction ∈ code, instruction.Sound environment ∧
    Instruction.returns results returns instruction = returns

theorem inside_append :
    Inside environment results returns (first ++ second) ↔
      Inside environment results returns first ∧ Inside environment results returns second :=
  forall_mem_append

theorem Inside.returns_eq (inside : Inside environment results returns code) :
    Code.returns results returns code = returns := by
  induction code with
  | nil => rfl
  | cons instruction rest ih =>
    obtain ⟨⟨-, same⟩, onward⟩ := forall_mem_cons.mp inside
    rw [Code.returns, foldl_cons, same]
    exact ih onward

theorem Typed.seq (one : Typed environment results returns first)
    (inside : Inside environment results returns first)
    (two : Typed environment results returns second) :
    Typed environment results returns (first ++ second) :=
  one.append (inside.returns_eq.symm ▸ two)

section

variable (typed : Typed environment results returns code)
include typed

theorem Typed.each :
    ∀ instruction ∈ code, instruction.WellTyped environment := by
  induction typed with
  | nil => simp
  | cons here _ _ ih => exact forall_mem_cons.mpr ⟨here, ih⟩
  | receive _ isSlot ofSlot ofTarget _ _ ih =>
    refine forall_mem_cons.mpr ⟨trivial, forall_mem_cons.mpr ⟨?_, ih⟩⟩
    exact ⟨⟨_, ofTarget⟩, ofSlot, fun _ notFrom => absurd ⟨_, isSlot, rfl⟩ notFrom⟩
  | ret isSlot ofSlot ofSource _ _ ih =>
    refine forall_mem_cons.mpr ⟨?_, forall_mem_cons.mpr ⟨trivial, ih⟩⟩
    exact ⟨ofSlot, ⟨_, ofSource⟩, fun notInto => absurd ⟨_, isSlot, rfl⟩ notInto⟩

theorem Typed.returned :
    ∀ place target source, code[place]? = some (.move target source) →
      (Value.symbol target).IsSlot environment → code[place + 1]? = some .ret ∧
        source.HasType environment (Code.returns results returns (code.take place)) := by
  induction typed with
  | nil => simp
  | cons _ spares _ ih =>
    intro place target source found isSlot
    cases place with
    | zero =>
      cases found
      exact absurd isSlot spares.1
    | succ place => exact ih place target source found isSlot
  | receive _ _ _ _ notInto _ ih =>
    intro place target source found isSlot
    match place with
    | 0 => cases found
    | 1 =>
      cases found
      exact absurd isSlot notInto
    | place + 2 => exact ih place target source found isSlot
  | ret _ _ ofSource _ _ ih =>
    intro place target source found isSlot
    match place with
    | 0 =>
      cases found
      exact ⟨rfl, ofSource⟩
    | 1 => cases found
    | place + 2 => exact ih place target source found isSlot

theorem Typed.received :
    ∀ place target source, code[place]? = some (.move target source) →
      source.IsSlot environment → ∃ before label type, place = before + 1 ∧
        code[before]? = some (.call label) ∧ results label = some type ∧
        (Value.symbol target).HasType environment type := by
  induction typed with
  | nil => simp
  | cons _ spares _ ih =>
    intro place target source found isSlot
    cases place with
    | zero =>
      cases found
      exact absurd isSlot spares.2
    | succ place =>
      obtain ⟨before, label, type, rfl, called⟩ := ih place target source found isSlot
      exact ⟨before + 1, label, type, rfl, called⟩
  | receive known _ _ ofTarget _ _ ih =>
    intro place target source found isSlot
    match place with
    | 0 => cases found
    | 1 =>
      cases found
      exact ⟨0, _, _, rfl, rfl, known, ofTarget⟩
    | place + 2 =>
      obtain ⟨before, label, type, rfl, called⟩ := ih place target source found isSlot
      exact ⟨before + 2, label, type, rfl, called⟩
  | ret _ _ _ notFrom _ ih =>
    intro place target source found isSlot
    match place with
    | 0 =>
      cases found
      exact absurd isSlot notFrom
    | 1 => cases found
    | place + 2 =>
      obtain ⟨before, label, type, rfl, called⟩ := ih place target source found isSlot
      exact ⟨before + 2, label, type, rfl, called⟩

end

theorem Typed.wellTyped (typed : Typed environment results .int code) :
    code.WellTyped environment results :=
  ⟨typed.each, typed.returned, typed.received⟩

end Code

variable {supply : Supply} {constants : ConstantTable}

theorem Computes.typed {results : Nat → Option ValueType} {returns : ValueType}
    {owned : Handle → Prop} {low high : Nat} {expression : Expression} {code : Code} {value : Value}
    (computes : Computes supply.symbols.Scratch owned low expression code value high)
    (inside : code.Inside (supply.tables constants) results returns) :
    Code.Typed (supply.tables constants) results returns code := by
  induction computes with
  | name => exact .nil
  | literal => exact .nil
  | binary _ _ fresh ihLeft ihRight =>
    obtain ⟨both, last⟩ := Code.inside_append.mp inside
    obtain ⟨inLeft, inRight⟩ := Code.inside_append.mp both
    obtain ⟨⟨operand, type, ofLeft, ofRight, operates, ofResult⟩, -⟩ := last _ mem_cons_self
    exact ((ihLeft inLeft).seq inLeft (ihRight inRight)).seq both
      (.cons ⟨operand, type, ofLeft, ofRight, operates, ofResult, fresh⟩ trivial .nil)

theorem Context.slot_made {context : Context}
    (known : (Value.symbol (context.layout supply).slot).Known (supply.tables constants)) :
    supply.symbols.returnSlot = some (context.layout supply).slot := by
  obtain ⟨type, typed⟩ := known
  simp only [Context.layout] at typed ⊢
  cases made : supply.symbols.returnSlot with
  | some slot => rfl
  | none =>
    rw [made] at typed
    cases typed with
    | symbol found => cases found

/-- What typing code rests on: tables that only grew, and entry labels with the types of results of their functions. -/
structure Context.Signed (context : Context) (base : Environment) (supply : Supply)
    (program : Program) (results : Nat → Option ValueType) : Prop where
  grown : (Generate.start base).Grown supply
  slotless : base.symbols.returnSlot = none
  callee : ∀ {handle function label}, program.function? handle = some function →
    context.entry? handle = some label → ∃ entry,
      base.symbols.lookup? handle = some (.func entry) ∧ entry.params = function.params ∧
      results label = some entry.returns
  params : ∀ {handle function}, program.function? handle = some function →
    ∀ param ∈ function.params, ∃ scope, base.symbols.Owned scope param

namespace Context.Signed

variable {context : Context} {base : Environment} {supply : Supply} {program : Program}
  {results : Nat → Option ValueType} (signed : context.Signed base supply program results)
  {returns type : ValueType} {scope low high : Nat} {code : Code} {value : Value}
include signed

theorem owned_not_slot {handle : Handle} (own : base.symbols.Owned scope handle) :
    ¬ (Value.symbol handle).IsSlot (supply.tables base.constants) := by
  rintro ⟨slot, isSlot, same⟩
  cases same
  obtain ⟨entry, found, -⟩ := own
  -- The slot was made after all variables of the program.
  obtain old | ⟨above, -⟩ := signed.grown.made _ isSlot
  · rw [signed.slotless] at old
    cases old
  · exact Int.not_lt.mpr above (SymbolTable.lt_size_of_lookup? found)

variable {expression : Expression}

section

variable (computes : Computes supply.symbols.Scratch (base.symbols.Owned scope) low expression code value high)
include computes

theorem computes_not_slot : ¬ value.IsSlot (supply.tables base.constants) := by
  cases computes with
  | name own => exact signed.owned_not_slot own
  | literal =>
    rintro ⟨slot, -, same⟩
    cases same
  | binary _ _ fresh =>
    rintro ⟨slot, isSlot, same⟩
    cases same
    obtain ⟨_, -, -, notSlot⟩ := fresh
    exact notSlot isSlot

theorem computes_hasType
    (sound : ∀ instruction ∈ code, instruction.Sound (supply.tables base.constants))
    (typed : expression.HasType base type) : value.HasType (supply.tables base.constants) type := by
  induction computes generalizing type with
  | name own =>
    cases typed with
    | name found => exact .symbol (signed.grown.lookup? found)
  | literal =>
    cases typed with
    | literal found => exact .constant found
  | @binary low middle high operation left right before after first second ofLeft ofRight fresh
      ihLeft ihRight =>
    cases typed with
    | binary leftTyped rightTyped operates =>
      simp only [forall_mem_append, forall_mem_singleton] at sound
      obtain ⟨⟨soundLeft, soundRight⟩, operand, result, leftIs, -, others, ofResult⟩ := sound
      -- The operands have the types that the tables give them, and so has the value.
      cases (ihLeft soundLeft leftTyped).unique leftIs
      cases operates.unique others
      exact ofResult

end

variable {expressions : List Expression} {values : List Value}

theorem computesAll_typed
    (computes : ComputesAll supply.symbols.Scratch (base.symbols.Owned scope) low expressions code
      values high) (inside : code.Inside (supply.tables base.constants) results returns) :
    Code.Typed (supply.tables base.constants) results returns code ∧
      List.Forall₂ (fun value expression => ¬ value.IsSlot (supply.tables base.constants) ∧
        ∀ type, expression.HasType base type →
          value.HasType (supply.tables base.constants) type) values expressions := by
  induction computes with
  | nil => exact ⟨.nil, .nil⟩
  | cons head _ ih =>
    obtain ⟨inHead, inTail⟩ := Code.inside_append.mp inside
    obtain ⟨typed, fits⟩ := ih inTail
    refine ⟨(head.typed inHead).seq inHead typed, .cons ⟨?_, ?_⟩ fits⟩
    · exact signed.computes_not_slot head
    · exact fun type => signed.computes_hasType head fun instruction member => (inHead _ member).1

theorem moves_typed {params : List Handle}
    (own : ∀ param ∈ params, ∃ scope, base.symbols.Owned scope param)
    (ofValues : List.Forall₂ (fun value expression =>
      ¬ value.IsSlot (supply.tables base.constants) ∧ ∀ type, expression.HasType base type →
        value.HasType (supply.tables base.constants) type) values expressions)
    (fits : List.Forall₂ (fun argument param => ∃ entry,
      base.symbols.lookup? param = some (.var entry) ∧ argument.HasType base entry.type)
      expressions params) :
    Code.Typed (supply.tables base.constants) results returns (moves params values) := by
  induction fits generalizing values with
  | nil => exact .nil
  | @cons expression param expressions params first _ ih =>
    cases ofValues with
    | cons value others =>
      obtain ⟨entry, found, typed⟩ := first
      obtain ⟨scope, isOwn⟩ := own param mem_cons_self
      refine .cons (Instruction.wellTyped_move (.symbol (signed.grown.lookup? found)) (value.2 _ typed))
        ⟨signed.owned_not_slot isOwn, value.1⟩ ?_
      exact ih (forall_mem_cons.mp own).2 others

/-- The code of a call is typed, and ends with the instruction that calls a function of the right type. -/
theorem calls_typed {call : Call} {callee : FunctionEntry}
    (calls : Calls program (context.layout supply) (base.symbols.Owned scope) call code)
    (typed : call.WellTyped base callee)
    (inside : code.Inside (supply.tables base.constants) results returns) :
    ∃ front label, code = front ++ [.call label] ∧
      Code.Typed (supply.tables base.constants) results returns front ∧
      front.Inside (supply.tables base.constants) results returns ∧
      results label = some callee.returns := by
  cases calls with
  | @mk _ _ label _ function arguments values known start computes count =>
    obtain ⟨inFront, -⟩ := Code.inside_append.mp inside
    obtain ⟨inArguments, inMoves⟩ := Code.inside_append.mp inFront
    obtain ⟨entry, found, params, result⟩ := signed.callee known start
    cases typed.isFunction.symm.trans found
    obtain ⟨typedArguments, ofValues⟩ := signed.computesAll_typed computes inArguments
    have bound : Code.Typed (supply.tables base.constants) results returns
        (moves function.params values) :=
      signed.moves_typed (signed.params known) ofValues (params ▸ typed.arguments)
    exact ⟨_, label, rfl, typedArguments.seq inArguments bound, inFront, result⟩

theorem guarded_typed {test body : Code} {mark stop : Nat}
    (computes : Computes supply.symbols.Scratch (base.symbols.Owned scope) low expression test value
      high) (boolean : expression.HasType base .boolean)
    (typed : body.Inside (supply.tables base.constants) results returns →
      Code.Typed (supply.tables base.constants) results returns body)
    (inside : Code.Inside (supply.tables base.constants) results returns
      (test ++ [.ifFalse value mark] ++ body ++ [.goto stop, .label mark])) :
    Code.Typed (supply.tables base.constants) results returns
      (test ++ [.ifFalse value mark] ++ body ++ [.goto stop, .label mark]) := by
  obtain ⟨inFront, last⟩ := Code.inside_append.mp inside
  obtain ⟨inTested, inBody⟩ := Code.inside_append.mp inFront
  obtain ⟨inTest, -⟩ := Code.inside_append.mp inTested
  have isBoolean := signed.computes_hasType computes (fun _ member => (inTest _ member).1) boolean
  have tested : Code.Typed (supply.tables base.constants) results returns
      (test ++ [.ifFalse value mark]) :=
    (computes.typed inTest).seq inTest (.cons isBoolean trivial .nil)
  exact (tested.seq inTested (typed inBody)).seq inFront
    (.cons trivial trivial (.cons trivial trivial .nil))

theorem coded_typed {mode : Option (Nat × Nat)} {statement : Statement}
    (coded : Coded program (context.layout supply) (base.symbols.Owned scope) mode low statement
      code high) (typed : statement.WellTyped base returns)
    (inside : code.Inside (supply.tables base.constants) results returns) :
    Code.Typed (supply.tables base.constants) results returns code := by
  induction coded with
  | skip => exact .nil
  | assign own computes =>
    obtain ⟨entry, found, ofValue⟩ := typed
    obtain ⟨inValue, -⟩ := Code.inside_append.mp inside
    have hasType := signed.computes_hasType computes (fun _ member => (inValue _ member).1) ofValue
    exact (computes.typed inValue).seq inValue (.cons
      (Instruction.wellTyped_move (.symbol (signed.grown.lookup? found)) hasType)
      ⟨signed.owned_not_slot own, signed.computes_not_slot computes⟩ .nil)
  | assignCall own calls =>
    obtain ⟨entry, callee, found, ofCall, same⟩ := typed
    obtain ⟨inCall, last⟩ := Code.inside_append.mp inside
    obtain ⟨front, label, rfl, typedFront, inFront, result⟩ := signed.calls_typed calls ofCall inCall
    obtain ⟨⟨-, ofSlot⟩, -⟩ := last _ mem_cons_self
    -- The move stands right behind the call, so it receives what the callee returns.
    rw [append_assoc]
    exact typedFront.seq inFront (.receive (same ▸ result) (Context.slot_made ofSlot) ofSlot
      (.symbol (signed.grown.lookup? found)) (signed.owned_not_slot own) .nil)
  | call calls =>
    obtain ⟨callee, ofCall⟩ := typed
    obtain ⟨front, label, rfl, typedFront, inFront, -⟩ := signed.calls_typed calls ofCall inside
    exact typedFront.seq inFront (.cons trivial trivial .nil)
  | ret computes =>
    obtain ⟨inValue, last⟩ := Code.inside_append.mp inside
    obtain ⟨⟨ofSlot, -⟩, -⟩ := last _ mem_cons_self
    have hasType := signed.computes_hasType computes (fun _ member => (inValue _ member).1) typed
    exact (computes.typed inValue).seq inValue (.ret (Context.slot_made ofSlot) ofSlot hasType
      (signed.computes_not_slot computes) .nil)
  | seq _ _ ihFirst ihSecond =>
    obtain ⟨inFirst, inSecond⟩ := Code.inside_append.mp inside
    exact (ihFirst typed.1 inFirst).seq inFirst (ihSecond typed.2 inSecond)
  | @loop low exit _ _ _ _ _ test body value computes _ _ ih =>
    have same : [.label low] ++ test ++ [.ifFalse value exit] ++ body ++ [.goto low, .label exit] =
        .label low :: (test ++ [.ifFalse value exit] ++ body ++ [.goto low, .label exit]) := by simp
    rw [same] at inside ⊢
    obtain ⟨⟨-, kept⟩, inLoop⟩ := forall_mem_cons.mp inside
    -- The label of a loop begins no block, so the type of results stays.
    refine .cons trivial trivial ?_
    rw [Instruction.returns, show (results low).getD returns = returns from kept]
    exact signed.guarded_typed computes typed.1 (ih typed.2) inLoop
  | cond _ _ ih => exact ih typed inside
  | last computes _ _ ih => exact signed.guarded_typed computes typed.1 (ih typed.2.1) inside
  | branch computes _ _ _ ihYes ihNo =>
    obtain ⟨inGuarded, inNo⟩ := Code.inside_append.mp inside
    exact (signed.guarded_typed computes typed.1 (ihYes typed.2.1) inGuarded).seq inGuarded
      (ihNo typed.2.2 inNo)
  | otherwise computes _ _ _ ihYes ihNo =>
    obtain ⟨inGuarded, inRest⟩ := Code.inside_append.mp inside
    obtain ⟨inNo, -⟩ := Code.inside_append.mp inRest
    have guarded := signed.guarded_typed computes typed.1 (ihYes typed.2.1) inGuarded
    exact guarded.seq inGuarded ((ihNo typed.2.2 inNo).seq inNo
      (.cons trivial trivial .nil))

end Context.Signed

end ThreeAddress

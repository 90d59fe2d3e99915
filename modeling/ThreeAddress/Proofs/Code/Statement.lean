import ThreeAddress.Proofs.Code.Expression

/-!
The code that is generated for statements.

Generation of a statement that was read from a tree succeeds exactly if the statement is well typed.
Its code has the layout of a statement, its operands are in the tables, and it holds the labels that were drawn for it.
-/

namespace ThreeAddress

open Source List

/-- The layout of the code for all statements, once nothing more is drawn. -/
def Context.layout (context : Context) (last : Supply) : Layout where
  slot := last.symbols.returnSlot.getD Handle.absent
  scratch := last.symbols.Scratch
  entry? := context.entry?

/-- What statements are generated in: the tables of a program, every function of which has an entry label. -/
structure Context.Prepared (context : Context) (base : Environment) (program : Program) : Prop where
  slotless : base.symbols.returnSlot = none
  constants : context.constants = base.constants
  known : ∀ {handle entry}, base.symbols.lookup? handle = some (.func entry) →
    ∃ function label, program.function? handle = some function ∧
      function.params = entry.params ∧ context.entry? handle = some label

theorem Source.isTerminal_of_hasCategory {symbol : Symbol} {category : Category}
    (has : symbol.hasCategory category = true) : symbol.isTerminal = true := by
  cases symbol with
  | terminal name other => rfl
  | nonterminal name => simp [Symbol.hasCategory, Symbol.category?] at has

namespace Generate

variable {base : Environment} {program : Program} {context : Context} {scope : Nat}
  {before after : Supply} {tree source : SyntaxTree} {expression : Expression}

/-- The target of an assignment is accepted exactly if it is a variable. -/
theorem target_accepts (named : NameIn base scope tree.value.handle) (reached : Reached base before) :
    Accepts (target tree) before
      (∃ entry, base.symbols.lookup? tree.value.handle = some (.var entry))
      fun result after => after = before ∧ result.1 = tree.value.handle ∧
        base.symbols.lookup? tree.value.handle = some (.var result.2) := by
  refine accepts_lookup? ?_
  obtain ⟨entry, known, -⟩ := named
  rw [reached.grown.lookup? known]
  cases entry with
  | var entry => exact accepts_pure ⟨rfl, rfl, known⟩
  | func entry =>
    refine accepts_report ?_ trivial
    rintro ⟨other, found⟩
    cases known.symm.trans found

/-- What is called is accepted exactly if it is a function. -/
theorem callee_accepts (named : NameIn base scope tree.value.handle) (reached : Reached base before) :
    Accepts (callee tree) before
      (∃ entry, base.symbols.lookup? tree.value.handle = some (.func entry))
      fun result after => after = before ∧ result.1 = tree.value.handle ∧
        base.symbols.lookup? tree.value.handle = some (.func result.2) := by
  refine accepts_lookup? ?_
  obtain ⟨entry, known, -⟩ := named
  rw [reached.grown.lookup? known]
  cases entry with
  | func entry => exact accepts_pure ⟨rfl, rfl, known⟩
  | var entry =>
    refine accepts_report ?_ trivial
    rintro ⟨other, found⟩
    cases known.symm.trans found

theorem read_identifier (isName : tree.value.symbol.hasCategory Language.identifier = true)
    (read : Expression.read? tree = some expression) : expression = .name tree.value.handle := by
  obtain ⟨id, ⟨symbol, token⟩, children⟩ := tree
  cases children with
  | cons first rest =>
    have terminal : symbol.isTerminal = true := isTerminal_of_hasCategory isName
    simp [Expression.read?, terminal] at read
  | nil =>
    cases symbol with
    | nonterminal name => simp [Expression.read?, Expression.ofLeaf?] at read
    | terminal name category =>
      have isIdentifier : category = Language.identifier := by
        simpa [Symbol.hasCategory, Symbol.category?] using isName
      cases token with
      | none => simp [Expression.read?, Expression.ofLeaf?] at read
      | some token =>
        simp only [Expression.read?, Expression.ofLeaf?, isIdentifier, if_true] at read
        cases read
        rfl

theorem isFunctionName_accepts (read : Expression.read? tree = some expression)
    (within : expression.Within (NameIn base scope) (LiteralIn base))
    (reached : Reached base before) :
    Accepts (isFunctionName tree) before True fun result after =>
      after = before ∧ (result = true → ¬ expression.WellTyped base) := by
  simp only [isFunctionName]
  split
  · next isName =>
    cases read_identifier isName read
    obtain ⟨entry, known, -⟩ := id within
    refine accepts_lookup? ?_
    rw [reached.grown.lookup? known]
    cases entry with
    | var entry => exact accepts_pure ⟨rfl, by simp⟩
    | func entry =>
      refine accepts_pure ⟨rfl, ?_⟩
      rintro - ⟨type, typed⟩
      cases typed with
      | name found => cases known.symm.trans found
  · exact accepts_pure ⟨rfl, by simp⟩

/-- What an expression is passed as: a value of its type, or a function if it has no type. -/
def Passes (base : Environment) (expression : Expression) : Argument → Prop
  | .value type => expression.HasType base type
  | .function => ¬ expression.WellTyped base

/-- The code of arguments. It computes them unless a function is among them, which the check of the call finds. -/
structure Passed (base : Environment) (scope : Nat) (expressions : List Expression)
    (before : Supply) (result : Code × List (Argument × Option Value)) (after : Supply) : Prop where
  settles : Settles base.constants before result.1 after
  still : after.nextLabel = before.nextLabel
  known : ∀ value, some value ∈ result.2.map Prod.snd → value.Known (after.tables base.constants)
  passes : List.Forall₂ (Passes base) expressions (result.2.map Prod.fst)
  computes : .function ∈ result.2.map Prod.fst ∨ ∃ values : List Value,
    result.2.map Prod.snd = values.map some ∧ ∀ last, after.Grown last →
      ComputesAll last.symbols.Scratch (base.symbols.Owned scope) before.symbols.size expressions
        result.1 values after.symbols.size

theorem arguments_accepts (constants : context.constants = base.constants) :
    ∀ {trees : List SyntaxTree} {expressions : List Expression} {before : Supply},
      Call.readArguments? trees = some expressions →
      (∀ expression ∈ expressions, expression.Within (NameIn base scope) (LiteralIn base)) →
      Reached base before →
      Accepts (arguments context trees) before (∀ expression ∈ expressions, expression.WellTyped base)
        (Passed base scope expressions before)
  | [], _, before, read, _, reached => by
    cases read
    exact accepts_pure ⟨.nil reached.ready, rfl, by simp, .nil, .inr ⟨[], rfl, fun _ _ => .nil⟩⟩
  | tree :: rest, expressions, before, read, within, reached => by
    simp only [Call.readArguments?] at read
    simp only [arguments]
    split at read
    · next comma =>
      rw [if_pos comma]
      exact arguments_accepts constants read within reached
    · next noComma =>
      rw [if_neg noComma]
      simp only [Option.bind_eq_bind, Option.bind_eq_some_iff] at read
      obtain ⟨expression, ofTree, others, ofRest, same⟩ := read
      cases same
      have insideRest : ∀ other ∈ others, other.Within (NameIn base scope) (LiteralIn base) :=
        (forall_mem_cons.mp within).2
      refine Accepts.bind (isFunctionName_accepts ofTree (within expression (by simp)) reached)
        (fun _ => trivial) ?_
      rintro isFunction supply ⟨rfl, untyped⟩
      cases isFunction with
      | true =>
        refine Accepts.bind (arguments_accepts constants ofRest insideRest reached)
          (fun typed other member => typed other (by simp [member])) ?_
        rintro ⟨code, remaining⟩ after passed
        exact accepts_pure ⟨passed.settles, passed.still, by simpa using passed.known,
          .cons (untyped rfl) passed.passes, .inl (by simp)⟩
      | false =>
        simp only [Bool.false_eq_true, if_false, constants]
        refine Accepts.bind (expression_accepts tree ofTree (within expression (by simp)) reached)
          (fun typed => typed expression (by simp)) ?_
        rintro ⟨code, value⟩ middle evaluates
        refine Accepts.bind (arguments_accepts constants ofRest insideRest
          (reached.behind evaluates.settles))
          (fun typed other member => typed other (by simp [member])) ?_
        rintro ⟨remaining, held⟩ after passed
        refine accepts_pure ⟨evaluates.settles.append passed.settles,
          passed.still.trans evaluates.still, fun other member => ?_,
          .cons evaluates.typed passed.passes, ?_⟩
        · obtain rfl | later : other = value.value ∨ some other ∈ held.map Prod.snd := by
            simpa using member
          · exact ⟨value.type, passed.settles.grown.hasType evaluates.fits⟩
          · exact passed.known other later
        · obtain function | ⟨values, same, computesAll⟩ := passed.computes
          · exact .inl (by simpa using function)
          · refine .inr ⟨value.value :: values, by simpa using same, fun last later => ?_⟩
            exact .cons (evaluates.computes last (passed.settles.grown.trans later))
              (computesAll last later)

/-- An argument is a value of the type of its parameter exactly if the expression has that type. -/
theorem passes_value_iff {argument : Argument} {type : ValueType}
    (passes : Passes base expression argument) :
    argument = .value type ↔ expression.HasType base type := by
  cases argument with
  | function =>
    simp only [reduceCtorEq, false_iff]
    exact fun typed => passes ⟨type, typed⟩
  | value other =>
    simp only [Argument.value.injEq]
    exact ⟨fun same => same ▸ passes, fun typed => Expression.HasType.unique passes typed⟩

variable {table : SymbolTable} {args : List Argument}

/-- Arguments fit parameters exactly if their expressions have the types of the parameters. -/
theorem passes_all_iff {expressions : List Expression}
    (passes : List.Forall₂ (Passes base) expressions args) :
    ∀ {params : List Handle}, (∀ param ∈ params, ∃ entry,
        base.symbols.lookup? param = some (.var entry) ∧ table.typeOf param = entry.type) →
      (args = (params.map fun param => .value (table.typeOf param)) ↔
        List.Forall₂ (fun argument param => ∃ entry,
          base.symbols.lookup? param = some (.var entry) ∧ argument.HasType base entry.type)
          expressions params) := by
  induction passes with
  | nil =>
    intro params declared
    cases params <;> simp
  | cons first _ ih =>
    intro params declared
    cases params with
    | nil => simp
    | cons param params =>
      obtain ⟨entry, known, type⟩ := declared param (by simp)
      have others := @ih params (forall_mem_cons.mp declared).2
      simp only [map_cons, List.cons.injEq, forall₂_cons, others, type,
        passes_value_iff first, known, Option.some.injEq, Entry.var.injEq, exists_eq_left']

theorem argumentProblem?_eq_none : ∀ {args : List Argument} {params : List ValueType},
    args.length = params.length →
      (SymbolTable.argumentProblem? args params = none ↔ args = params.map .value)
  | [], [], _ => by simp [SymbolTable.argumentProblem?]
  | [], _ :: _, count => by simp at count
  | _ :: _, [], count => by simp at count
  | .function :: _, _ :: _, _ => by simp [SymbolTable.argumentProblem?]
  | .value type :: args, param :: params, count => by
    have others := @argumentProblem?_eq_none args params (by simpa using count)
    simp only [SymbolTable.argumentProblem?, map_cons, List.cons.injEq, Argument.value.injEq]
    split
    · next same => rw [others]; simp [same]
    · next differs => simp [differs]

variable {function : FunctionEntry}

/-- A call passes its check exactly if each argument is a value of the type of its parameter. -/
theorem checkCall_eq_ok :
    table.checkCall function args = .ok () ↔
      args = function.params.map fun param => .value (table.typeOf param) := by
  have mapped : (function.params.map fun param => Argument.value (table.typeOf param)) =
      (function.params.map table.typeOf).map .value := by simp
  simp only [SymbolTable.checkCall, mapped]
  split
  · next fits =>
    split at fits
    · next count => simp [(argumentProblem?_eq_none count).mp fits]
    · cases fits
  · next problem found =>
    simp only [reduceCtorEq, false_iff]
    intro same
    have count : args.length = (function.params.map table.typeOf).length := by simp [same]
    rw [if_pos count, (argumentProblem?_eq_none count).mpr same] at found
    cases found

theorem call_parts {source : Call} (read : Call.read? tree = some source) :
    ∃ name, tree.children[1]? = some name ∧ source.function = name.value.handle ∧
      ¬ tree.children.length < 4 ∧
      Call.readArguments? (tree.children.drop 3).dropLast = some source.arguments := by
  simp only [Call.read?] at read
  split at read
  case h_2 => cases read
  case h_1 opening name paren rest children =>
    split at read
    · cases read
    · next filled =>
      obtain ⟨expressions, ofArguments, same⟩ := Option.bind_eq_some_iff.mp read
      cases same
      have some := length_pos_iff.mpr (mt isEmpty_iff.mpr filled)
      refine ⟨name, by rw [children]; rfl, rfl, ?_, by simpa [children] using ofArguments⟩
      simp only [children, length_cons]
      omega

theorem bindParameters_eq : ∀ (params : List Handle) (values : List Value),
    bindParameters params (values.map some) = moves params values
  | [], _ => by simp [bindParameters, moves]
  | _ :: _, [] => by simp [bindParameters, moves]
  | param :: params, value :: values => by
    simp only [map_cons, bindParameters, bindParameters_eq params values]
    rfl

/-- The parameters of every function are variables. -/
def ParametersDeclared (base : Environment) : Prop :=
  ∀ handle entry, base.symbols.lookup? handle = some (.func entry) →
    ∀ param ∈ entry.params, ∃ held, base.symbols.lookup? param = some (.var held)

theorem typeOf_grown {handle : Handle} {entry : VariableEntry} (grown : (start base).Grown before)
    (known : base.symbols.lookup? handle = some (.var entry)) :
    before.symbols.typeOf handle = entry.type := by
  rw [SymbolTable.typeOf, grown.lookup? known]
  rfl

theorem checkCall_isTyping {error : Diagnostic}
    (failed : table.checkCall function args = .error error) : error.IsTyping := by
  simp only [SymbolTable.checkCall] at failed
  split at failed
  · cases failed
  · cases failed
    trivial

/-- The code of a call. -/
structure Invokes (base : Environment) (program : Program) (context : Context) (scope : Nat)
    (source : Call) (before : Supply) (result : Code × FunctionEntry) (after : Supply) : Prop where
  settles : Settles base.constants before result.1 after
  still : after.nextLabel = before.nextLabel
  typed : source.WellTyped base result.2
  calls : ∀ last, after.Grown last →
    Calls program (context.layout last) (base.symbols.Owned scope) source result.1

/-- A call is accepted exactly if it is well typed. -/
theorem call_accepts (prepared : context.Prepared base program) (declared : ParametersDeclared base)
    {source : Call} (read : Call.read? tree = some source)
    (within : source.Within (NameIn base scope) (LiteralIn base)) (reached : Reached base before) :
    Accepts (call context tree) before (∃ entry, source.WellTyped base entry)
      (Invokes base program context scope source before) := by
  obtain ⟨name, second, isName, enough, ofArguments⟩ := call_parts read
  have named := within.1
  rw [isName] at named
  simp only [call]
  refine accepts_child second ?_
  refine Accepts.bind (callee_accepts named reached)
    (by rintro ⟨entry, typed⟩; exact ⟨entry, isName ▸ typed.isFunction⟩) ?_
  rintro ⟨handle, entry⟩ _ ⟨rfl, rfl, known⟩
  rw [if_neg enough]
  refine Accepts.bind (arguments_accepts prepared.constants ofArguments within.2 reached)
    (by rintro ⟨_, typed⟩; exact typed.argument) ?_
  rintro ⟨code, args⟩ after passed
  refine accepts_get ?_
  have grown := (reached.behind passed.settles).grown
  have types : ∀ param ∈ entry.params, ∃ held, base.symbols.lookup? param = some (.var held) ∧
      after.symbols.typeOf param = held.type := by
    intro param member
    obtain ⟨held, isVariable⟩ := declared _ entry known param member
    exact ⟨held, isVariable, typeOf_grown grown isVariable⟩
  -- The check passes exactly if the arguments have the types of the parameters.
  have fits := passes_all_iff passed.passes types
  split
  · next error failed =>
    refine accepts_report ?_ (checkCall_isTyping failed)
    rintro ⟨other, typed⟩
    cases known.symm.trans (isName ▸ typed.isFunction)
    cases (checkCall_eq_ok.mpr (fits.mpr typed.arguments)).symm.trans failed
  · next checked =>
    have held := checkCall_eq_ok.mp checked
    obtain ⟨function, label, isFunction, params, labelled⟩ := prepared.known known
    dsimp only at labelled ⊢
    rw [labelled]
    refine accepts_pure ⟨(passed.settles.with _ (bindParameters_sound ?_ passed.known)
      (bindParameters_results ..)).with _ (by simp [Instruction.Sound]) rfl, passed.still,
      ⟨isName ▸ known, fits.mp held⟩, fun last later => ?_⟩
    · intro param member
      obtain ⟨entry, isVariable, -⟩ := types param member
      exact ⟨entry.type, .symbol (grown.lookup? isVariable)⟩
    · obtain function | ⟨values, isSome, computesAll⟩ := passed.computes
      · rw [held] at function
        simp at function
      · have counted : values.length = entry.params.length := by
          have all := congrArg List.length isSome
          have args := congrArg List.length held
          simp only [length_map] at all args
          rw [← args, all]
        dsimp only at isSome ⊢
        rw [isSome, bindParameters_eq, ← params]
        exact .mk (isName ▸ isFunction) (isName ▸ labelled) (computesAll last later)
          (params ▸ counted)

/-- A statement with the types that are needed in the function around it. -/
def Fits (base : Environment) (context : Context) (statement : Statement) : Prop :=
  statement.WellTyped base (context.function.elim .int FunctionEntry.returns)

/-- Code of a statement that fits. It holds as many labels as are given and drawn, and has a layout whatever is drawn later. -/
structure Makes (base : Environment) (context : Context) (statement : Statement) (before : Supply)
    (given : Nat) (coded : Layout → Prop) (code : Code) (after : Supply) : Prop where
  settles : Settles base.constants before code after
  places : before.Places given code after
  fits : Fits base context statement
  coded : ∀ last, after.Grown last → coded (context.layout last)

def Codes (base : Environment) (program : Program) (context : Context) (scope : Nat)
    (statement : Statement) (before : Supply) (code : Code) (after : Supply) : Prop :=
  Makes base context statement before 0 (fun layout => Coded program layout
    (base.symbols.Owned scope) none before.nextLabel statement code after.nextLabel) code after

/-- A step makes the code of a statement exactly if the statement fits. -/
def Checks (base : Environment) (program : Program) (context : Context) (scope : Nat)
    (statement : Statement) (step : Generate Code) (before : Supply) : Prop :=
  Accepts step before (Fits base context statement) (Codes base program context scope statement before)

theorem skip_checks (reached : Reached base before) :
    Checks base program context scope .skip (pure []) before :=
  accepts_pure ⟨.nil reached.ready, rfl, trivial, fun _ _ => .skip⟩

variable {place : SyntaxTree}

theorem assign_checks (constants : context.constants = base.constants)
    (read : Expression.read? source = some expression)
    (inside : (Statement.assign place.value.handle expression).ScopedIn base scope)
    (reached : Reached base before) :
    Checks base program context scope (.assign place.value.handle expression)
      (assign context place source) before := by
  refine Accepts.bind (target_accepts inside.1 reached)
    (fun ⟨entry, known, _⟩ => ⟨entry, known⟩) ?_
  rintro ⟨handle, entry⟩ supply ⟨rfl, rfl, known⟩
  dsimp only at known ⊢
  rw [constants]
  refine Accepts.bind (expression_accepts source read inside.2 reached)
    (fun ⟨_, _, typed⟩ => ⟨_, typed⟩) ?_
  rintro ⟨code, value⟩ after evaluates
  dsimp only
  have grown := (reached.behind evaluates.settles).grown
  split
  · next same =>
    refine accepts_pure ⟨evaluates.settles.with _ ?_ rfl, .quiet evaluates.still ?_,
      ⟨entry, known, evaluates.type_iff.mp same⟩, fun last later => ?_⟩
    · simpa [Instruction.Sound] using
        ⟨⟨entry.type, .symbol (grown.lookup? known)⟩, value.type, evaluates.fits⟩
    · simp [show code.labels = [] from evaluates.labels]
    · exact .assign (inside.1.owned known) (evaluates.computes last later) evaluates.still.ge
  · next differs =>
    refine accepts_report ?_ trivial
    rintro ⟨other, found, typed⟩
    cases known.symm.trans found
    exact differs (evaluates.type_iff.mpr typed)

theorem slot_eq {supply last : Supply} {slot : Handle}
    (made : supply.symbols.returnSlot = some slot) (later : supply.Grown last) :
    (context.layout last).slot = slot := by
  simp [Context.layout, later.kept slot made]

/-- An assigned call needs a function that returns values of the type of the variable. -/
theorem assignCall_checks (prepared : context.Prepared base program)
    (declared : ParametersDeclared base) {call : Call} (read : Call.read? source = some call)
    (inside : (Statement.assignCall place.value.handle call).ScopedIn base scope)
    (reached : Reached base before) :
    Checks base program context scope (.assignCall place.value.handle call)
      (assignCall context place source) before := by
  refine Accepts.bind (target_accepts inside.1 reached)
    (fun ⟨entry, _, known, _⟩ => ⟨entry, known⟩) ?_
  rintro ⟨handle, entry⟩ supply ⟨rfl, rfl, known⟩
  refine Accepts.bind (call_accepts prepared declared read inside.2 reached)
    (fun ⟨_, callee, _, typed, _⟩ => ⟨callee, typed⟩) ?_
  rintro ⟨code, function⟩ middle invokes
  dsimp only at known ⊢
  split
  · next same =>
    refine Accepts.bind (accepts_returnSlot base.constants invokes.settles.ready)
      (fun _ => trivial) ?_
    rintro slot after ⟨grown, ready, still, made, isKnown, drawn⟩
    have lasts := still.trans invokes.still
    refine accepts_pure ⟨invokes.settles.append ⟨grown, ready, ?_, by simpa [Code.results]⟩, .quiet lasts ?_,
      ⟨entry, function, known, invokes.typed, same⟩, fun last later => ?_⟩
    · have found := ((reached.behind invokes.settles).grown.trans grown).lookup? known
      simpa [Instruction.Sound] using ⟨⟨entry.type, .symbol found⟩, isKnown⟩
    · have calls := (invokes.calls after grown).labels
      simpa using calls
    · have coded := Coded.assignCall (inside.1.owned known)
        (invokes.calls last (grown.trans later)) lasts.ge
      rwa [slot_eq made later] at coded
  · next differs =>
    refine accepts_report ?_ trivial
    rintro ⟨other, callee, found, typed, same⟩
    cases known.symm.trans found
    cases invokes.typed.isFunction.symm.trans typed.isFunction
    exact differs same

/-- A return needs a value of the type that the function around it returns. -/
theorem ret_checks (constants : context.constants = base.constants)
    (read : Expression.read? source = some expression)
    (inside : (Statement.ret expression).ScopedIn base scope) (reached : Reached base before) :
    Checks base program context scope (.ret expression) (ret context source) before := by
  simp only [ret, constants]
  refine Accepts.bind (expression_accepts source read inside reached) (fun typed => ⟨_, typed⟩) ?_
  rintro ⟨code, value⟩ middle evaluates
  dsimp only
  split
  · next same =>
    refine Accepts.bind (accepts_returnSlot base.constants evaluates.settles.ready)
      (fun _ => trivial) ?_
    rintro slot after ⟨grown, ready, still, made, isKnown, drawn⟩
    have lasts := still.trans evaluates.still
    refine accepts_pure ⟨evaluates.settles.append ⟨grown, ready, ?_, by simpa [Code.results]⟩,
      .quiet lasts ?_, evaluates.type_iff.mp same, fun last later => ?_⟩
    · simpa [Instruction.Sound] using ⟨isKnown, value.type, grown.hasType evaluates.fits⟩
    · simpa using evaluates.labels
    · have coded := @Coded.ret program (context.layout last) _ _ _ _ _ _ _ _
        (evaluates.computes last (grown.trans later)) lasts.ge
      rwa [slot_eq made later] at coded
  · next differs => exact accepts_report (mt evaluates.type_iff.mpr differs) trivial

variable {statement : Statement}

theorem simpleStatement_cases (context : Context)
    (read : Statement.readSimple? tree = some statement) :
    (statement = .skip ∧ simpleStatement context tree = pure []) ∨
    (∃ place source expression, Expression.read? source = some expression ∧
      statement = .assign place.value.handle expression ∧
      simpleStatement context tree = assign context place source) ∨
    (∃ place source call, Call.read? source = some call ∧
      statement = .assignCall place.value.handle call ∧
      simpleStatement context tree = assignCall context place source) ∨
    (∃ source call, Call.read? source = some call ∧ statement = .call call ∧
      simpleStatement context tree = (Generate.call context source >>= fun made => pure made.1)) ∨
    (∃ source expression, Expression.read? source = some expression ∧
      statement = .ret expression ∧ simpleStatement context tree = ret context source) := by
  simp only [Statement.readSimple?] at read
  split at read
  · next declares =>
    simp only [simpleStatement, declares]
    split at read
    · next children =>
      cases read
      exact .inl ⟨rfl, by simp [children]⟩
    · next _ _ place _ source _ children =>
      obtain ⟨expression, ofSource, same⟩ := Option.bind_eq_some_iff.mp read
      cases same
      exact .inr (.inl ⟨place, source, expression, ofSource, rfl, by simp [children, child]⟩)
    · cases read
  · split at read
    · next assigns =>
      have notDeclaration : ("ASSIGN" : Text) ≠ "DECL" := by decide
      simp only [simpleStatement, assigns, notDeclaration, if_false]
      split at read
      · next place _ source _ children =>
        split at read
        · next isCall =>
          obtain ⟨call, ofSource, same⟩ := Option.bind_eq_some_iff.mp read
          cases same
          refine .inr (.inr (.inl ⟨place, source, call, ofSource, rfl, ?_⟩))
          simp [children, child, isCall]
        · next noCall =>
          obtain ⟨expression, ofSource, same⟩ := Option.bind_eq_some_iff.mp read
          cases same
          refine .inr (.inl ⟨place, source, expression, ofSource, rfl, ?_⟩)
          simp [children, child, noCall]
      · cases read
    · split at read
      · next calls =>
        have others : ("CALLSTMT" : Text) ≠ "DECL" ∧ ("CALLSTMT" : Text) ≠ "ASSIGN" := by decide
        simp only [simpleStatement, calls, others, if_false]
        split at read
        · next source _ children =>
          obtain ⟨call, ofSource, same⟩ := Option.bind_eq_some_iff.mp read
          cases same
          refine .inr (.inr (.inr (.inl ⟨source, call, ofSource, rfl, ?_⟩)))
          simp [children, child]
        · cases read
      · split at read
        · next returns =>
          have others : ("RETURN" : Text) ≠ "DECL" ∧ ("RETURN" : Text) ≠ "ASSIGN" ∧
            ("RETURN" : Text) ≠ "CALLSTMT" := by decide
          simp only [simpleStatement, returns, others, if_false]
          split at read
          · next _ source _ children =>
            obtain ⟨expression, ofSource, same⟩ := Option.bind_eq_some_iff.mp read
            cases same
            refine .inr (.inr (.inr (.inr ⟨source, expression, ofSource, rfl, ?_⟩)))
            simp [children, child]
          · cases read
        · cases read

/-- A statement that holds no others is accepted exactly if it fits. -/
theorem simpleStatement_checks (prepared : context.Prepared base program)
    (declared : ParametersDeclared base) (read : Statement.readSimple? tree = some statement)
    (inside : statement.ScopedIn base scope) (reached : Reached base before) :
    Checks base program context scope statement (simpleStatement context tree) before := by
  rcases simpleStatement_cases context read with ⟨rfl, made⟩ |
    ⟨place, source, expression, ofSource, rfl, made⟩ | ⟨place, source, call, ofSource, rfl, made⟩ |
    ⟨source, call, ofSource, rfl, made⟩ | ⟨source, expression, ofSource, rfl, made⟩
  · rw [made]
    exact skip_checks reached
  · rw [made]
    exact assign_checks prepared.constants ofSource inside reached
  · rw [made]
    exact assignCall_checks prepared declared ofSource inside reached
  · rw [made]
    refine Accepts.bind (call_accepts prepared declared ofSource inside reached)
      (fun typed => typed) ?_
    rintro ⟨code, function⟩ after invokes
    exact accepts_pure ⟨invokes.settles, .quiet invokes.still (invokes.calls after (.refl after)).labels,
      ⟨function, invokes.typed⟩, fun last later => .call (invokes.calls last later) invokes.still.ge⟩
  · rw [made]
    exact ret_checks prepared.constants ofSource inside reached

end Generate

end ThreeAddress

import ThreeAddress.Proofs.Code.Typing
import ThreeAddress.Proofs.Compiler.Returns
import ThreeAddress.Proofs.Compiler.Typing

/-!
The instructions of compiled programs are well typed.

The label of the main block stands for integers, and that of a function for the type of its results.
These types tell what may be moved to the slot for results in the code behind a label, and from it behind a call.
-/

namespace ThreeAddress

open Source List

/-- The types of results that belong to labels: the main block has the first label, and then each function has one. -/
def Source.Program.results (program : Program) (symbols : SymbolTable) : Nat → Option ValueType
  | 0 => some .int
  | index + 1 => do
    let function ← program.functions[index]?
    return (← symbols.function? function.handle).returns

variable {program : Program} {context : Context} {base : Environment} {supply : Supply}
  {results : Nat → Option ValueType} {scopes : List (Nat × Function)} {code : Code}

theorem Code.inside_of_labels {environment : Environment} {returns : ValueType}
    (sound : ∀ instruction ∈ code, instruction.Sound environment)
    (labels : ∀ label ∈ code.labels, (results label).getD returns = returns) :
    code.Inside environment results returns := by
  intro instruction member
  refine ⟨sound instruction member, ?_⟩
  cases instruction with
  | label place => exact labels place (mem_filterMap.mpr ⟨_, member, rfl⟩)
  | _ => rfl

variable {symbols : SymbolTable}

theorem Source.Program.results_above (same : scopes.map Prod.snd = program.functions) {label : Nat}
    (above : scopes.length < label) : program.results symbols label = none := by
  cases label with
  | zero => omega
  | succ index =>
    have missing : program.functions[index]? = none := by
      rw [← same, getElem?_eq_none_iff, length_map]
      omega
    rw [Program.results, missing]
    rfl

theorem Source.Program.results_entry (same : scopes.map Prod.snd = program.functions)
    (grown : (Generate.start base).Grown supply) {index : Nat} {held : Nat × Function}
    (found : scopes[index]? = some held) {entry : FunctionEntry}
    (known : base.symbols.lookup? held.2.handle = some (.func entry)) :
    program.results supply.symbols (index + 1) = some entry.returns := by
  have isFunction : program.functions[index]? = some held.2 := by
    rw [← same, getElem?_map, found]
    rfl
  have later : supply.symbols.function? held.2.handle = some entry := by
    rw [SymbolTable.function?, grown.lookup? known]
  rw [Program.results, isFunction]
  simp [later]

variable {scope : Nat}

theorem ProgramCoded.signed {owned : Nat → Handle → Prop}
    (coded : ProgramCoded program (context.layout supply) owned scope scopes code)
    (same : scopes.map Prod.snd = program.functions) (functionsIn : FunctionsIn base scopes)
    (grown : (Generate.start base).Grown supply) (slotless : base.symbols.returnSlot = none) :
    context.Signed base supply program (program.results supply.symbols) where
  grown := grown
  slotless := slotless
  callee {handle function label} known start := by
    obtain ⟨scope, inside, rfl⟩ := held_of_function? same known
    obtain ⟨entry, found, params⟩ := (functionsIn.each _ inside).entry
    obtain ⟨index, isAt⟩ := mem_iff_getElem?.mp inside
    cases start.symm.trans (coded.entries index _ isAt)
    exact ⟨entry, found, params, Program.results_entry same grown isAt found⟩
  params {handle function} known param member := by
    obtain ⟨scope, inside, rfl⟩ := held_of_function? same known
    exact ⟨scope, (functionsIn.each _ inside).owned param member⟩

namespace Context.Signed

variable (signed : context.Signed base supply program results) {scope low high : Nat}
  {returns : ValueType}
include signed

theorem functions_typed {entry : Nat} {functions : List (Nat × Function)}
    (coded : FunctionsCoded program (context.layout supply) base.symbols.Owned entry low functions
      code high)
    (known : ∀ held ∈ functions, program.function? held.2.handle = some held.2)
    (typed : ∀ held ∈ functions, held.2.WellTyped base)
    (free : ∀ label, low ≤ label → results label = none)
    (sound : ∀ instruction ∈ code, instruction.Sound (supply.tables base.constants)) :
    Code.Typed (supply.tables base.constants) results returns code := by
  induction coded generalizing returns with
  | nil => exact .nil
  | @cons entry low middle high scope function rest body code start head _ ih =>
    obtain ⟨isKnown, onward⟩ := forall_mem_cons.mp known
    obtain ⟨⟨held, found, typedBody⟩, others⟩ := forall_mem_cons.mp typed
    obtain ⟨_, again, -, result⟩ := signed.callee isKnown start
    cases found.symm.trans again
    obtain ⟨more, -, taken, -⟩ := head.labels (by simp)
    obtain ⟨-, soundBody, soundRest⟩ : _ ∧ _ ∧ _ := by
      simpa only [cons_append, forall_mem_cons, forall_mem_append] using sound
    have inside : body.Inside (supply.tables base.constants) results held.returns := by
      refine Code.inside_of_labels soundBody fun label member => ?_
      rw [free label (taken label member).1]
      rfl
    -- The entry label sets the type of results, and the body leaves it.
    refine .cons trivial trivial ?_
    rw [Instruction.returns, result, Option.getD_some]
    refine (signed.coded_typed head typedBody inside).append ?_
    exact ih onward others (fun label above => free label (Nat.le_trans more above)) soundRest

theorem main_typed {main : Statement} (typed : main.WellTyped base returns)
    (coded : Coded program (context.layout supply) (base.symbols.Owned scope) none low main code high)
    (free : ∀ label, low ≤ label → (results label).getD returns = returns)
    (sound : ∀ instruction ∈ code, instruction.Sound (supply.tables base.constants)) :
    Code.Typed (supply.tables base.constants) results returns code := by
  obtain ⟨-, -, taken, -⟩ := coded.labels (by simp)
  exact signed.coded_typed coded typed
    (Code.inside_of_labels sound fun label member => free label (taken label member).1)

end Context.Signed

theorem ProgramCoded.wellTyped
    (coded : ProgramCoded program (context.layout supply) base.symbols.Owned scope scopes code)
    (same : scopes.map Prod.snd = program.functions) (functionsIn : FunctionsIn base scopes)
    (grown : (Generate.start base).Grown supply) (slotless : base.symbols.returnSlot = none)
    (typed : program.WellTyped base)
    (sound : ∀ instruction ∈ code, instruction.Sound (supply.tables base.constants)) :
    code.WellTyped (supply.tables base.constants) (program.results supply.symbols) := by
  have signed := coded.signed same functionsIn grown slotless
  refine Code.Typed.wellTyped ?_
  cases coded with
  | plain ofMain =>
    refine signed.main_typed typed.main ofMain (fun label _ => ?_) sound
    cases label with
    | zero => rfl
    | succ index =>
      rw [Program.results_above same (Nat.succ_pos index)]
      rfl
  | @behind middle high _ functions main ofFunctions ofMain =>
    have more := (ofFunctions.labels (Nat.le_refl _)).1
    obtain ⟨-, soundFunctions, -, soundMain⟩ : _ ∧ _ ∧ _ ∧ _ := by
      simpa only [cons_append, forall_mem_cons, forall_mem_append] using sound
    refine .cons trivial trivial (.append ?_ (.cons trivial trivial ?_))
    · refine signed.functions_typed ofFunctions ?_ ?_ (fun label atLeast => ?_)
        soundFunctions
      · exact fun held member => Generate.function?_of_mem same functionsIn.handles member
      · exact fun held member => typed.functions held.2 (same ▸ mem_map_of_mem member)
      · exact Program.results_above same (by omega)
    · refine signed.main_typed typed.main ofMain (fun label atLeast => ?_) soundMain
      rw [Program.results_above same (by omega)]
      rfl

theorem generate_sound {tree : SyntaxTree} (read : Program.read? tree = some program)
    (inside : program.ScopedIn base) (generated : generate base tree = (.ok code, symbols)) :
    ∀ instruction ∈ code, instruction.Sound { symbols, constants := base.constants } := by
  obtain ⟨-, error, failed, -⟩ | ⟨_, supply, isCode, made⟩ := generate_made read inside
  · rw [generated] at failed
    cases failed
  · cases generated.symm.trans isCode
    exact made.sound

namespace Compiler

/--
Compiled code is well typed.

Every function has its label in the code, and the labels tell the types of results on both sides of a call.
-/
theorem compile_wellTyped {compiler : Compiler} (standard : Compiler.standard = .ok compiler)
    {text : Text} {compilation : Compilation} (compiled : compiler.compile text = .ok compilation) :
    ∃ program, Program.read? compilation.tree = some program ∧
      (∀ index < program.functions.length, .label (index + 1) ∈ compilation.code) ∧
      compilation.code.WellTyped compilation.environment
        (program.results compilation.environment.symbols) := by
  obtain ⟨program, base, read, inside, generated, constants⟩ := compile_generated standard compiled
  refine ⟨program, read, ?_⟩
  -- Code is generated for well-typed programs only.
  obtain ⟨typed, -⟩ | ⟨-, error, failed, -⟩ := generate_decides read inside
  · obtain ⟨error, failed⟩ | ⟨code, supply, context, scopes, scope, isCode, grown, same, functionsIn,
      -, coded⟩ := generate_cases read inside
    · rw [generated] at failed
      cases failed
    · obtain ⟨isResult, symbols⟩ := Prod.mk.inj (generated.symm.trans isCode)
      cases isResult
      have environment : compilation.environment = supply.tables base.constants := by
        rw [Supply.tables, ← symbols, ← constants]
      refine ⟨fun index below => ?_, ?_⟩
      · rw [← same, length_map] at below
        obtain ⟨place, -, -, -, -, labelled, -⟩ := coded.located (getElem?_eq_getElem below)
        exact mem_of_getElem? labelled
      · have sound := generate_sound read inside isCode
        rw [environment]
        exact coded.wellTyped same functionsIn grown inside.sound.slotless typed sound
  · rw [generated] at failed
    cases failed

/-- A program in which every rule for types is used compiles to code that returns from a function and receives its result. -/
theorem typedText_compiled : (Compiler.standard.toOption.bind fun compiler =>
    (compiler.compile typedText).toOption.bind fun compilation =>
      (Program.read? compilation.tree).map fun program =>
        (compilation.environment.symbols.returnSlot, compilation.code[5]?, compilation.code[12]?,
          Code.returns (program.results compilation.environment.symbols) .int
            (compilation.code.take 5))) =
    some (some 7, some (.move 7 (.symbol 6)), some (.move 3 (.symbol 7)), .boolean) := by
  decide +kernel

/-- The function returns a truth value, and the main block receives it in a variable for one. -/
theorem compile_wellTyped_returned : ∃ compiler compilation, Compiler.standard = .ok compiler ∧
    compiler.compile typedText = .ok compilation ∧
    compilation.code[5]? = some (.move 7 (.symbol 6)) ∧ compilation.code[6]? = some .ret ∧
    (Value.symbol 6).HasType compilation.environment .boolean ∧
    ∃ label type, compilation.code[11]? = some (.call label) ∧
      compilation.code[12]? = some (.move 3 (.symbol 7)) ∧
      (Value.symbol 3).HasType compilation.environment type := by
  obtain ⟨compiler, standard, computed⟩ := ok_of_toOption_bind typedText_compiled
  obtain ⟨compilation, compiled, computed⟩ := ok_of_toOption_bind computed
  obtain ⟨program, read, answers⟩ := Option.map_eq_some_iff.mp computed
  simp only [Prod.mk.injEq] at answers
  obtain ⟨slot, into, outOf, returns⟩ := answers
  obtain ⟨_, again, -, wellTyped⟩ := compile_wellTyped standard compiled
  cases read.symm.trans again
  obtain ⟨isRet, hasType⟩ := wellTyped.returned 5 7 _ into ⟨7, slot, rfl⟩
  obtain ⟨before, label, type, place, called, -, received⟩ :=
    wellTyped.received 12 3 _ outOf ⟨7, slot, rfl⟩
  obtain rfl : before = 11 := by omega
  exact ⟨compiler, compilation, standard, compiled, into, isRet, returns ▸ hasType, label, type,
    called, outOf, received⟩

end Compiler

end ThreeAddress

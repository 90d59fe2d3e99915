import ThreeAddress.Proofs.Code.Binding
import ThreeAddress.Proofs.Compiler.Returns

/-!
What calls bind in compiled code.

A call binds the parameters of a function to the values that its arguments have in front of the call, unless a move reads a parameter that an earlier one has changed.
Only variables of the function itself are its parameters, so that can happen where a function calls itself and nowhere else.
-/

namespace ThreeAddress

open Source List

/-- A place behind the label of a block, with no label that a block begins with between them. -/
def Code.Belongs (code : Code) (entries : List Nat) (label place : Nat) : Prop :=
  ∃ start < place, code[start]? = some (.label label) ∧
    ∀ between, start < between → between < place →
      ∀ other ∈ entries, code[between]? ≠ some (.label other)

namespace Code.Belongs

variable {first second : Code} {entries : List Nat} {label place : Nat}

theorem inLeft (belongs : first.Belongs entries label place) (inside : place ≤ first.length) :
    (first ++ second).Belongs entries label place := by
  obtain ⟨start, before, labelled, free⟩ := belongs
  refine ⟨start, before, ?_, fun between after until_ other member => ?_⟩
  · rw [getElem?_append_left (by omega)]
    exact labelled
  · rw [getElem?_append_left (by omega)]
    exact free between after until_ other member

theorem inRight (belongs : second.Belongs entries label (place - first.length))
    (behind : first.length ≤ place) : (first ++ second).Belongs entries label place := by
  obtain ⟨start, before, labelled, free⟩ := belongs
  refine ⟨first.length + start, by omega, ?_, fun between after until_ other member => ?_⟩
  · rw [getElem?_append_right (Nat.le_add_right ..), Nat.add_sub_cancel_left]
    exact labelled
  · rw [getElem?_append_right (by omega)]
    exact free _ (by omega) (by omega) other member

theorem head {body : Code} (free : ∀ other ∈ entries, other ∉ body.labels) :
    Belongs (.label label :: body) entries label (place + 1) := by
  refine ⟨0, Nat.succ_pos place, rfl, fun between after until_ other member found => ?_⟩
  obtain ⟨between, rfl⟩ := Nat.exists_eq_succ_of_ne_zero (Nat.ne_of_gt after)
  rw [getElem?_cons_succ] at found
  exact free other member (mem_filterMap.mpr ⟨_, mem_of_getElem? found, rfl⟩)

end Code.Belongs

variable {program : Program} {layout : Layout} {owned : Nat → Handle → Prop}
  {scopes : List (Nat × Function)} {code : Code}

/-- A call binds parameters to values of other variables as if it bound them all at once. -/
theorem CallAt.undisturbed {own : Handle → Prop} {start label : Nat} {function : Function}
    {values : List Value} (call : CallAt program layout own code start label function values)
    (apart : ∀ param ∈ function.params, ¬ own param ∧ ¬ layout.scratch param) :
    Undisturbed (function.params.zip values) := by
  refine pairwise_of_forall_mem_list fun earlier isEarlier later isLater reads => ?_
  obtain ⟨notOwn, notScratch⟩ := apart earlier.1 (of_mem_zip isEarlier).1
  rcases call.within earlier.1 (reads ▸ (of_mem_zip isLater).2) with own | isScratch
  · exact absurd own notOwn
  · exact absurd isScratch notScratch

/-- Every call in the code of functions belongs to one of them, and stands behind moves that bind parameters. -/
theorem FunctionsCoded.calling {entries : List Nat} {entry low high : Nat}
    {functions : List (Nat × Function)}
    (coded : FunctionsCoded program layout owned entry low functions code high)
    (below : ∀ other ∈ entries, other < low) : ∀ place label, code[place]? = some (.call label) →
      ∃ index held start function values, functions[index]? = some held ∧
        code.Belongs entries (entry + index) place ∧ place = start + function.params.length ∧
        CallAt program layout (owned held.1) code start label function values := by
  induction coded with
  | nil => simp
  | @cons entry low middle high scope caller rest body code start head tail ih =>
    obtain ⟨more, -, taken, -⟩ := head.labels (by simp)
    intro place label found
    rcases Nat.lt_or_ge place (.label entry :: body : Code).length with inside | behind
    · rw [getElem?_append_left inside] at found
      cases place with
      | zero => cases found
      | succ place =>
        obtain ⟨start, function, values, rfl, call⟩ := head.calling place label found
        -- The labels of a body are drawn behind all entries, so none of them begins a block.
        have free : ∀ other ∈ entries, other ∉ body.labels := by
          intro other member isLabel
          have isBelow := below other member
          have isAbove := (taken other isLabel).1
          omega
        have placed : Code.At ([.label entry] ++ body) (1 + start)
            (moves function.params values ++ [.call label]) := call.placed.inRight
        refine ⟨0, (scope, caller), 1 + start, function, values, rfl, ?_, by omega,
          { call with placed := placed.inLeft }⟩
        exact (Code.Belongs.head free).inLeft (Nat.le_of_lt inside)
    · -- A call behind the first function is one of another, which is counted from there.
      rw [getElem?_append_right behind] at found
      obtain ⟨index, held, start, function, values, isHeld, belongs, same, call⟩ :=
        ih (fun other member => Nat.lt_of_lt_of_le (below other member) more) _ label found
      refine ⟨index + 1, held, _, function, values, isHeld, ?_, ?_,
        { call with placed := call.placed.inRight }⟩
      · rw [Nat.add_comm index, ← Nat.add_assoc]
        exact belongs.inRight behind
      · omega

/-- Every call in the code of a program belongs to a function or to the main block, and stands behind moves that bind parameters. -/
theorem ProgramCoded.calling {scope : Nat}
    (coded : ProgramCoded program layout owned scope scopes code)
    (same : scopes.map Prod.snd = program.functions) :
    ∀ place label, code[place]? = some (.call label) → ∃ owner start function values,
      place = start + function.params.length ∧
        CallAt program layout (owned owner) code start label function values ∧
        (owner = scope ∨ ∃ index held, scopes[index]? = some held ∧ held.1 = owner ∧
          code.Belongs program.entries (index + 1) place) := by
  have count : scopes.length = program.functions.length := by rw [← same, length_map]
  cases coded with
  | plain ofMain =>
    intro place label found
    obtain ⟨start, function, values, isPlace, call⟩ := ofMain.calling place label found
    exact ⟨scope, start, function, values, isPlace, call, .inl rfl⟩
  | @behind middle high _ functions main ofFunctions ofMain =>
    have below : ∀ other ∈ program.entries, other < 1 + scopes.length := by
      intro other member
      have isBelow := mem_range.mp member
      omega
    intro place label found
    cases place with
    | zero => cases found
    | succ place =>
      rw [cons_append, getElem?_cons_succ] at found
      rcases Nat.lt_or_ge place functions.length with inside | behind
      · rw [getElem?_append_left inside] at found
        obtain ⟨index, held, start, function, values, isHeld, belongs, rfl, call⟩ :=
          ofFunctions.calling below place label found
        have placed : Code.At ([.goto 0] ++ (functions ++ .label 0 :: main)) (1 + start)
            (moves function.params values ++ [.call label]) := call.placed.inLeft.inRight
        refine ⟨held.1, 1 + start, function, values, by omega, { call with placed := placed },
          .inr ⟨index, held, isHeld, rfl, ?_⟩⟩
        have inFront : Code.Belongs ([.goto 0] ++ (functions ++ .label 0 :: main)) program.entries
            (1 + index) (start + function.params.length + 1) :=
          (belongs.inLeft (Nat.le_of_lt inside)).inRight (Nat.succ_pos _)
        rwa [Nat.add_comm 1 index] at inFront
      · -- Behind the functions there is the label of the main block, and then its code.
        obtain ⟨further, rfl⟩ := Nat.exists_eq_add_of_le behind
        rw [getElem?_append_right behind, Nat.add_sub_cancel_left] at found
        cases further with
        | zero => cases found
        | succ further =>
          obtain ⟨start, function, values, rfl, call⟩ := ofMain.calling further label found
          have placed : Code.At ((.goto 0 :: functions ++ [.label 0]) ++ main)
              ((.goto 0 :: functions ++ [.label 0] : Code).length + start)
              (moves function.params values ++ [.call label]) := call.placed.inRight
          rw [append_assoc] at placed
          refine ⟨scope, _, function, values, ?_, { call with placed := placed }, .inl rfl⟩
          simp only [cons_append, length_cons, length_append, length_nil]
          omega

/--
A call binds the parameters of a function to the values of its arguments exactly if no argument is a parameter that an earlier move has changed.

That can only fail in the code of the function itself.
-/
theorem Compiler.compile_binds_iff {compiler : Compiler}
    (standard : Compiler.standard = .ok compiler) {text : Text} {compilation : Compilation}
    (compiled : compiler.compile text = .ok compilation) :
    ∃ program, Program.read? compilation.tree = some program ∧
      ∀ place label, compilation.code[place]? = some (.call label) →
        ∃ index function values start, label = index + 1 ∧
          program.functions[index]? = some function ∧
          values.length = function.params.length ∧ place = start + function.params.length ∧
          compilation.code.At start (moves function.params values) ∧
          (compilation.code.Binds start function.params values ↔
            Undisturbed (function.params.zip values)) ∧
          (Undisturbed (function.params.zip values) ∨
            compilation.code.Belongs program.entries label place) := by
  obtain ⟨program, base, supply, context, scopes, scope, read, grown, same, functionsIn, apart, -,
    coded⟩ := compile_layout standard compiled
  refine ⟨program, read, fun place label found => ?_⟩
  obtain ⟨owner, start, function, values, isPlace, call, inBlock⟩ :=
    coded.calling same place label found
  -- The callee is one of the functions, and its label is the one that is called.
  obtain ⟨own, member, -⟩ := held_of_function? same call.known
  obtain ⟨index, isAt⟩ := mem_iff_getElem?.mp member
  cases call.entry.symm.trans (coded.entries index _ isAt)
  have scopedIn := functionsIn.each _ member
  have isFunction : program.functions[index]? = some function := by
    rw [← same, getElem?_map, isAt]
    rfl
  refine ⟨index, function, values, start, rfl, isFunction, call.count, isPlace, call.placed.left,
    Code.binds_iff scopedIn.distinct call.count call.placed.left, ?_⟩
  by_cases isOwner : owner = own
  · -- A variable of the callee is at hand only in its own code.
    subst isOwner
    obtain rfl | ⟨other, held, isHeld, sameScope, belongs⟩ := inBlock
    · exact absurd (mem_map_of_mem member) apart
    · cases inj_on_of_nodup_map functionsIn.scopes (mem_of_getElem? isHeld) member
        sameScope
      cases (coded.entries other _ isHeld).symm.trans (coded.entries index _ isAt)
      exact .inr belongs
  · refine .inl (call.undisturbed fun param isParam => ⟨fun inOwner => isOwner ?_, ?_⟩)
    · exact SymbolTable.Owned.scope_eq inOwner (scopedIn.owned param isParam)
    · exact grown.lasting (scopedIn.owned param isParam)

/-- A function that calls itself with its parameters exchanged. -/
def swapText : Text :=
  "func int #f ( int #a , int #b ) \x7b call #f ( #b , #a ) ; return #a ; \x7d start end"

/-- A function that calls itself with one parameter as it is and the difference of both. -/
def differenceText : Text :=
  ("func int #gcd(int #a, int #b) \x7b if (#a > #b) \x7b #a = call #gcd(#a - #b, #b); \x7d " : Text) ++
    "fi return #a; \x7d start end"

theorem swapText_compiled : (Compiler.standard.toOption.bind fun compiler =>
    (compiler.compile swapText).toOption.bind fun compilation =>
      some ((compilation.code.drop 2).take 3)) =
    some (moves [1, 2] [.symbol 2, .symbol 1] ++ [.call 1]) := by
  decide +kernel

theorem differenceText_compiled : (Compiler.standard.toOption.bind fun compiler =>
    (compiler.compile differenceText).toOption.bind fun compilation =>
      (Program.read? compilation.tree).map fun program =>
        (program.functions.map Function.params, (compilation.code.drop 5).take 3)) =
    some ([[1, 2]], [.move 1 (.symbol 4), .move 2 (.symbol 2), .call 1]) := by
  decide +kernel

theorem Code.at_of_take {code part : Code} {place count : Nat}
    (same : (code.drop place).take count = part) : code.At place part := by
  intro index inside
  rw [← same, getElem?_take_of_lt (by rw [← same] at inside; grind), getElem?_drop]

/-- Exchanged parameters are not bound to the values that they had. -/
theorem Compiler.compile_misbinds : ∃ compiler compilation, Compiler.standard = .ok compiler ∧
    compiler.compile swapText = .ok compilation ∧
    compilation.code[4]? = some (.call 1) ∧
    compilation.code.At 2 (moves [1, 2] [.symbol 2, .symbol 1]) ∧
    ¬ compilation.code.Binds 2 [1, 2] [.symbol 2, .symbol 1] := by
  obtain ⟨compiler, standard, computed⟩ := ok_of_toOption_bind swapText_compiled
  obtain ⟨compilation, compiled, code⟩ := ok_of_toOption_bind computed
  have placed := Code.at_of_take (Option.some.inj code)
  refine ⟨compiler, compilation, standard, compiled, placed.right.head, placed.left, ?_⟩
  rw [Code.binds_iff (by decide) rfl placed.left]
  decide

/-- A parameter that is passed on as it is and a difference are bound to the values that they had. -/
theorem Compiler.compile_binds_difference : ∃ compiler compilation,
    Compiler.standard = .ok compiler ∧ compiler.compile differenceText = .ok compilation ∧
    compilation.code[7]? = some (.call 1) ∧
    compilation.code.Binds 5 [1, 2] [.symbol 4, .symbol 2] := by
  obtain ⟨compiler, standard, computed⟩ := ok_of_toOption_bind differenceText_compiled
  obtain ⟨compilation, compiled, computed⟩ := ok_of_toOption_bind computed
  obtain ⟨program, read, answers⟩ := Option.map_eq_some_iff.mp computed
  obtain ⟨functions, code⟩ := Prod.mk.inj answers
  have placed := Code.at_of_take code
  obtain ⟨_, again, binds⟩ := compile_binds_iff standard compiled
  cases read.symm.trans again
  obtain ⟨index, function, values, start, label, isFunction, count, place, moved, iff, -⟩ :=
    binds 7 1 placed.tail.tail.head
  cases label
  have params : function.params = [1, 2] := by
    have only := congrArg (fun lists => lists[0]?) functions
    simpa [getElem?_map, isFunction] using only
  rw [params] at count place moved iff
  obtain rfl : start = 5 := by simpa using place.symm
  obtain ⟨first, second, rfl⟩ := length_eq_two.mp count
  cases placed.head.symm.trans moved.head
  cases placed.tail.head.symm.trans moved.tail.head
  exact ⟨compiler, compilation, standard, compiled, placed.tail.tail.head, iff.mpr (by decide)⟩

end ThreeAddress

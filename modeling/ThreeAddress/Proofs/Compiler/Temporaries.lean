import ThreeAddress.Proofs.Compiler.Meaning

/-!
Temporaries hand a value on from one instruction to one other.

The code of an expression leaves a value, which the next instruction uses.
For each temporary that is followed through the code: it does not occur, it is left to be used, or it was used.
-/

namespace ThreeAddress

open Source List

namespace Instruction

/-- The variable that an instruction writes. -/
def target? : Instruction → Option Handle
  | binary _ result _ _ => some result
  | move target _ => some target
  | _ => none

def reads : Instruction → List Value
  | binary _ _ left right => [left, right]
  | move _ source => [source]
  | ifFalse condition _ => [condition]
  | _ => []

end Instruction

namespace Code

variable {handle : Handle} {code first second : Code} {values : List Value}
  {instruction : Instruction}

/-- Code in which a variable does not occur. -/
def Free (handle : Handle) (code : Code) : Prop :=
  ∀ instruction ∈ code, instruction.target? ≠ some handle ∧ .symbol handle ∉ instruction.reads

/-- Code with one operation that writes a variable, and only other operations and copies behind it. -/
def Opens (handle : Handle) (code : Code) : Prop :=
  ∃ before operation left right after, code = before ++ .binary operation handle left right :: after ∧
    Free handle (before ++ after) ∧ .symbol handle ∉ [left, right] ∧
    after.all Instruction.computes = true

/-- Code with one operation that writes a variable and one later instruction that reads it, and only other operations and copies between them. -/
def UsesOnce (handle : Handle) (code : Code) : Prop :=
  ∃ opening user after, code = opening ++ user :: after ∧ Opens handle opening ∧
    user.target? ≠ some handle ∧ user.reads.count (.symbol handle) = 1 ∧ Free handle after

/-- What becomes of a temporary in code that leaves some values to be used. -/
inductive Fate (handle : Handle) (code : Code) (values : List Value) : Prop where
  | free (absent : .symbol handle ∉ values) (free : Free handle code)
  | left (once : values.count (.symbol handle) = 1) (opens : Opens handle code)
  | used (absent : .symbol handle ∉ values) (used : UsesOnce handle code)

/-- Code that uses its temporaries once, except for those that it leaves to be used. -/
def Leaves (scratch : Handle → Prop) (code : Code) (values : List Value) : Prop :=
  code.results.Nodup → ∀ handle, scratch handle → Fate handle code values

theorem mem_results : handle ∈ code.results ↔
    ∃ operation left right, .binary operation handle left right ∈ code := by
  simp only [results, mem_filterMap]
  constructor
  · rintro ⟨instruction, member, is⟩
    cases instruction with
    | binary operation result left right =>
      cases is
      exact ⟨operation, left, right, member⟩
    | _ => cases is
  · rintro ⟨operation, left, right, member⟩
    exact ⟨_, member, rfl⟩

theorem Free.append (one : Free handle first) (two : Free handle second) :
    Free handle (first ++ second) :=
  forall_mem_append.mpr ⟨one, two⟩

theorem Opens.mem (opens : Opens handle code) : handle ∈ code.results := by
  obtain ⟨before, operation, left, right, after, rfl, -⟩ := opens
  exact mem_results.mpr ⟨operation, left, right, by simp⟩

/-- Code in front that a variable does not occur in. -/
theorem Opens.behind (free : Free handle first) (opens : Opens handle second) :
    Opens handle (first ++ second) := by
  obtain ⟨before, operation, left, right, after, rfl, others, apart, straight⟩ := opens
  refine ⟨first ++ before, operation, left, right, after, by simp, ?_, apart, straight⟩
  rw [append_assoc]
  exact free.append others

/-- Operations and copies that a variable does not occur in may follow before it is used. -/
theorem Opens.before (opens : Opens handle first) (free : Free handle second)
    (passes : second.all Instruction.computes = true) : Opens handle (first ++ second) := by
  obtain ⟨before, operation, left, right, after, rfl, others, apart, straight⟩ := opens
  refine ⟨before, operation, left, right, after ++ second, by simp, ?_, apart, ?_⟩
  · rw [← append_assoc]
    exact others.append free
  · rw [all_append, straight, passes]
    rfl

theorem UsesOnce.mem (used : UsesOnce handle code) : handle ∈ code.results := by
  obtain ⟨opening, user, after, rfl, opens, -⟩ := used
  rw [results_append]
  exact mem_append_left _ opens.mem

theorem UsesOnce.behind (free : Free handle first) (used : UsesOnce handle second) :
    UsesOnce handle (first ++ second) := by
  obtain ⟨opening, user, after, rfl, opens, others⟩ := used
  exact ⟨first ++ opening, user, after, by simp, opens.behind free, others⟩

theorem UsesOnce.before (used : UsesOnce handle first) (free : Free handle second) :
    UsesOnce handle (first ++ second) := by
  obtain ⟨opening, user, after, rfl, opens, apart, once, others⟩ := used
  exact ⟨opening, user, after ++ second, by simp, opens, apart, once, others.append free⟩

variable {scratch : Handle → Prop}

theorem Leaves.still (still : code.all fun instruction =>
      instruction.target?.isNone && instruction.reads.isEmpty) : Leaves scratch code [] := by
  refine fun _ handle _ => .free List.not_mem_nil fun instruction member => ?_
  have plain := all_eq_true.mp still instruction member
  simp only [Bool.and_eq_true, Option.isNone_iff_eq_none, List.isEmpty_iff] at plain
  simp [plain]

theorem Leaves.variable (kept : ¬ scratch handle) : Leaves scratch [] [.symbol handle] := by
  refine fun _ other isScratch => .free (fun same => ?_) (by simp [Free])
  cases mem_singleton.mp same
  exact kept isScratch

/-- What is left by code may be used behind operations and copies that follow. -/
theorem Leaves.append {more : List Value} (one : Leaves scratch first values)
    (two : Leaves scratch second more)
    (passes : values = [] ∨ second.all Instruction.computes = true) :
    Leaves scratch (first ++ second) (values ++ more) := by
  intro nodup handle isScratch
  rw [results_append, nodup_append] at nodup
  obtain ⟨once, again, apart⟩ := nodup
  have absent : ∀ {one other : List Value}, .symbol handle ∉ one → .symbol handle ∉ other →
      .symbol handle ∉ one ++ other := fun notOne notOther =>
    fun either => (mem_append.mp either).elim notOne notOther
  cases one once handle isScratch with
  | free notHere free =>
    cases two again handle isScratch with
    | free notThere other => exact .free (absent notHere notThere) (free.append other)
    | left isLeft opens =>
      refine .left ?_ (opens.behind free)
      rw [count_append, count_eq_zero.mpr notHere, isLeft]
    | used notThere used => exact .used (absent notHere notThere) (used.behind free)
  | left isLeft opens =>
    cases two again handle isScratch with
    | free notThere free =>
      have follows : second.all Instruction.computes = true := passes.resolve_left fun none => by
        simp [none] at isLeft
      refine .left ?_ (opens.before free follows)
      rw [count_append, count_eq_zero.mpr notThere, isLeft]
    | left _ other | used _ other => exact absurd rfl (apart handle opens.mem handle other.mem)
  | used notHere used =>
    cases two again handle isScratch with
    | free notThere free => exact .used (absent notHere notThere) (used.before free)
    | left _ other | used _ other => exact absurd rfl (apart handle used.mem handle other.mem)

/-- The next instruction uses the first values, and leaves its result if it is an operation. -/
theorem Leaves.consume (rest : List Value)
    (leaves : Leaves scratch code (instruction.reads ++ rest))
    (passes : rest = [] ∨ instruction.computes = true)
    (writes : ∀ handle, instruction.target? = some handle → scratch handle →
      handle ∈ results [instruction]) :
    Leaves scratch (code ++ [instruction]) (rest ++ (results [instruction]).map .symbol) := by
  intro nodup handle isScratch
  rw [results_append, nodup_append] at nodup
  obtain ⟨once, -, apart⟩ := nodup
  have wrote (known : handle ∈ code.results) : instruction.target? ≠ some handle ∧
      .symbol handle ∉ (results [instruction]).map Value.symbol := by
    have other : handle ∉ results [instruction] := fun again => apart handle known handle again rfl
    exact ⟨fun isTarget => other (writes handle isTarget isScratch), by simpa using other⟩
  have single (unread : .symbol handle ∉ instruction.reads)
      (other : instruction.target? ≠ some handle) : Free handle [instruction] :=
    forall_mem_singleton.mpr ⟨other, unread⟩
  cases leaves once handle isScratch with
  | free absent free =>
    rw [mem_append, not_or] at absent
    by_cases isTarget : instruction.target? = some handle
    · -- Only an operation writes a temporary, and its result is left.
      obtain ⟨operation, left, right, member⟩ := mem_results.mp (writes handle isTarget isScratch)
      cases mem_singleton.mp member
      refine .left ?_ ⟨code, operation, left, right, [], rfl, by simpa using free, absent.1, rfl⟩
      simp [results, count_eq_zero.mpr absent.2]
    · refine .free ?_ (free.append (single absent.1 isTarget))
      intro either
      rcases mem_append.mp either with isRest | isResult
      · exact absent.2 isRest
      · obtain ⟨_, written, same⟩ := mem_map.mp isResult
        cases same
        obtain ⟨operation, left, right, member⟩ := mem_results.mp written
        cases mem_singleton.mp member
        exact isTarget rfl
  | left isLeft opens =>
    obtain ⟨other, absent⟩ := wrote opens.mem
    rw [count_append] at isLeft
    by_cases unread : .symbol handle ∈ instruction.reads
    · have counted := count_pos_iff.mpr unread
      have notRest : .symbol handle ∉ rest := count_eq_zero.mp (by omega)
      exact .used (fun either => (mem_append.mp either).elim notRest absent)
        ⟨code, instruction, [], rfl, opens, other, by omega, by simp [Free]⟩
    · rw [count_eq_zero.mpr unread, Nat.zero_add] at isLeft
      have follows : instruction.computes = true := passes.resolve_left fun none => by
        simp [none] at isLeft
      refine .left ?_ (opens.before (single unread other) (by simp [follows]))
      rw [count_append, count_eq_zero.mpr absent, isLeft]
  | used absent used =>
    rw [mem_append, not_or] at absent
    obtain ⟨other, notResult⟩ := wrote used.mem
    exact .used (fun either => (mem_append.mp either).elim absent.2 notResult)
      (used.before (single absent.1 other))

theorem Leaves.use (rest : List Value) (leaves : Leaves scratch code (instruction.reads ++ rest))
    (passes : rest = [] ∨ instruction.computes = true) (still : results [instruction] = [])
    (kept : ∀ handle, instruction.target? = some handle → ¬ scratch handle) :
    Leaves scratch (code ++ [instruction]) rest := by
  have used := leaves.consume rest passes fun handle isTarget isScratch =>
    absurd isScratch (kept handle isTarget)
  rwa [still, map_nil, append_nil] at used

theorem Leaves.moves {targets : List Handle} (kept : ∀ target ∈ targets, ¬ scratch target)
    (counted : values.length = targets.length) (leaves : Leaves scratch code values) :
    Leaves scratch (code ++ ThreeAddress.moves targets values) [] := by
  induction targets generalizing values code with
  | nil =>
    obtain rfl := length_eq_zero_iff.mp counted
    simpa [ThreeAddress.moves] using leaves
  | cons target targets ih =>
    cases values with
    | nil => simp at counted
    | cons value values =>
      have used : Leaves scratch (code ++ [.move target value]) values :=
        leaves.use values (.inr rfl) rfl fun handle isTarget => by
          cases isTarget
          exact kept target mem_cons_self
      have others := ih (forall_mem_cons.mp kept).2
        (by simpa using counted) used
      simpa [ThreeAddress.moves] using others

end Code

section Expressions

variable {scratch owned : Handle → Prop} {low high : Nat} {code : Code}
  (lasting : ∀ handle, owned handle → ¬ scratch handle)
include lasting

theorem Computes.leaves {expression : Expression} {value : Value}
    (computes : Computes scratch owned low expression code value high) :
    code.Leaves scratch [value] := by
  induction computes with
  | @name _ handle own => exact .variable (lasting handle own)
  | literal => exact fun _ other _ => .free (by simp) (by simp [Code.Free])
  | @binary low middle high operation left right before after first second _ ofRight fresh ihLeft
      ihRight =>
    have both := ihLeft.append ihRight (.inr ofRight.all_computes)
    exact Code.Leaves.consume [] both (.inl rfl) fun handle isTarget _ => by
      cases isTarget
      exact mem_singleton_self _

theorem ComputesAll.leaves {expressions : List Expression} {values : List Value}
    (computes : ComputesAll scratch owned low expressions code values high) :
    code.Leaves scratch values := by
  induction computes with
  | nil => exact .still rfl
  | cons head tail ih => exact (head.leaves lasting).append ih (.inr tail.all_computes)

end Expressions

section Statements

variable {program : Program} {layout : Layout} {code : Code}
  (slot : ¬ layout.scratch layout.slot)
  (params : ∀ {handle function}, program.function? handle = some function →
    ∀ param ∈ function.params, ¬ layout.scratch param)

section Scope

variable {owned : Handle → Prop} (lasting : ∀ handle, owned handle → ¬ layout.scratch handle)

include params lasting in
theorem Calls.leaves {call : Call} (calls : Calls program layout owned call code) :
    code.Leaves layout.scratch [] := by
  cases calls with
  | mk known start arguments count =>
    exact ((arguments.leaves lasting).moves (params known) count).append (.still rfl) (.inl rfl)

include slot params lasting in
theorem Coded.leaves {mode : Option (Nat × Nat)} {low high : Nat} {statement : Statement}
    (coded : Coded program layout owned mode low statement code high) :
    code.Leaves layout.scratch [] := by
  have copied {before : Code} {value : Value} {target : Handle}
      (leaves : before.Leaves layout.scratch [value]) (kept : ¬ layout.scratch target) :
      Code.Leaves layout.scratch (before ++ [.move target value]) [] :=
    leaves.use [] (.inl rfl) rfl fun handle isTarget => by
      cases isTarget
      exact kept
  have tested {expression : Expression} {first last : Nat} {before : Code} {value : Value}
      (computes : Computes layout.scratch owned first expression before value last) (label : Nat) :
      Code.Leaves layout.scratch (before ++ [.ifFalse value label]) [] :=
    (computes.leaves lasting).use [] (.inl rfl) rfl fun handle isTarget => by cases isTarget
  have marked (mark stop : Nat) : Code.Leaves layout.scratch [.goto mark, .label stop] [] := .still rfl
  have labelled (label : Nat) : Code.Leaves layout.scratch [.label label] [] := .still rfl
  induction coded with
  | skip => exact .still rfl
  | assign own computes _ => exact copied (computes.leaves lasting) (lasting _ own)
  | assignCall own calls _ =>
    exact (calls.leaves params lasting).append (copied (.variable slot) (lasting _ own)) (.inl rfl)
  | call calls _ => exact calls.leaves params lasting
  | ret computes _ =>
    have returns : Code.Leaves layout.scratch [.ret] [] := .still rfl
    simpa using (copied (computes.leaves lasting) slot).append returns (.inl rfl)
  | seq _ _ ihFirst ihSecond => exact ihFirst.append ihSecond (.inl rfl)
  | @loop low exit _ _ _ _ _ _ _ _ computes _ _ ih =>
    have test := (labelled low).append (tested computes exit) (.inl rfl)
    simpa using (test.append ih (.inl rfl)).append (marked low exit) (.inl rfl)
  | cond _ _ ih => exact ih
  | @last stop _ _ _ _ _ _ _ _ _ _ computes _ _ ih =>
    exact ((tested computes stop).append ih (.inl rfl)).append (marked stop stop) (.inl rfl)
  | @branch mark stop _ _ _ _ _ _ _ _ _ _ _ _ _ _ _ computes _ _ _ ihYes ihNo =>
    have yes := ((tested computes mark).append ihYes (.inl rfl)).append (marked stop mark) (.inl rfl)
    exact yes.append ihNo (.inl rfl)
  | @otherwise mark _ _ _ _ _ _ _ _ _ _ _ _ _ computes _ _ _ ihYes ihNo =>
    have yes := ((tested computes mark).append ihYes (.inl rfl)).append (marked (mark + 1) mark)
      (.inl rfl)
    exact yes.append (ihNo.append (labelled (mark + 1)) (.inl rfl)) (.inl rfl)

end Scope

variable {owned : Nat → Handle → Prop}
  (lasting : ∀ scope handle, owned scope handle → ¬ layout.scratch handle)
include slot params lasting

variable {functions : List (Nat × Function)}

theorem FunctionsCoded.leaves {entry low high : Nat}
    (coded : FunctionsCoded program layout owned entry low functions code high) :
    code.Leaves layout.scratch [] := by
  induction coded with
  | nil => exact .still rfl
  | @cons entry _ _ _ scope _ _ _ _ _ head _ ih =>
    have labelled : Code.Leaves layout.scratch [.label entry] [] := .still rfl
    exact (labelled.append (head.leaves slot params (lasting scope)) (.inl rfl)).append ih (.inl rfl)

theorem ProgramCoded.leaves {scope : Nat}
    (coded : ProgramCoded program layout owned scope functions code) :
    code.Leaves layout.scratch [] := by
  cases coded with
  | plain ofMain => exact ofMain.leaves slot params (lasting scope)
  | behind ofFunctions ofMain =>
    have jumps : Code.Leaves layout.scratch [.goto 0] [] := .still rfl
    have labelled : Code.Leaves layout.scratch [.label 0] [] := .still rfl
    have functions := jumps.append (ofFunctions.leaves slot params lasting) (.inl rfl)
    exact functions.append (labelled.append (ofMain.leaves slot params (lasting scope)) (.inl rfl))
      (.inl rfl)

end Statements

namespace Compiler

/--
Every temporary of compiled code is the result of one operation, and one later instruction reads it.

Between the two there are only operations and copies. Operations write nothing but temporaries.
-/
theorem compile_temporaries_used_once {compiler : Compiler}
    (standard : Compiler.standard = .ok compiler) {text : Text} {compilation : Compilation}
    (compiled : compiler.compile text = .ok compilation) :
    (∀ handle, compilation.Scratch handle → compilation.code.UsesOnce handle) ∧
      ∀ operation result left right,
        .binary operation result left right ∈ compilation.code → compilation.Scratch result := by
  obtain ⟨program, base, read, inside, generated, -⟩ := compile_generated standard compiled
  obtain ⟨-, error, failed, -⟩ | ⟨code, supply, isCode, made⟩ := generate_made read inside
  · rw [generated] at failed
    cases failed
  · obtain ⟨sameCode, sameTable⟩ := Prod.mk.inj (generated.symm.trans isCode)
    cases sameCode
    -- The temporaries are the results of the operations, in their order.
    have results : compilation.code.results = compilation.environment.symbols.drawn := by
      rw [sameTable, made.drawn]
    have listed : ∀ handle, handle ∈ compilation.code.results ↔ compilation.Scratch handle := by
      intro handle
      rw [results, SymbolTable.mem_drawn, Compilation.Scratch]
    refine ⟨fun handle isScratch => ?_, fun operation result left right member =>
      (listed result).mp (Code.mem_results.mpr ⟨operation, left, right, member⟩)⟩
    obtain ⟨context, scopes, scope, same, functionsIn, -, coded⟩ := made.coded
    have params : ∀ {handle function}, program.function? handle = some function →
        ∀ param ∈ function.params, ¬ supply.symbols.Scratch param := by
      intro handle function known param member
      obtain ⟨_, isHeld, _⟩ := held_of_function? same known
      exact made.grown.lasting ((functionsIn.each _ isHeld).owned param member)
    have leaves := coded.leaves supply.symbols.slot_not_scratch params
      fun _ _ own => made.grown.lasting own
    have once : compilation.code.results.Nodup := results ▸ SymbolTable.drawn_nodup _
    have isDrawn : supply.symbols.Scratch handle := by
      rw [← sameTable]
      exact isScratch
    cases leaves once handle isDrawn with
    | used _ used => exact used
    | free _ free =>
      obtain ⟨operation, left, right, member⟩ := Code.mem_results.mp ((listed handle).mpr isScratch)
      exact absurd rfl (free _ member).1
    | left isLeft => simp at isLeft

/-- A function of two arguments that are computed one after the other, called in a loop with a test. -/
def argumentsText : Text :=
  ("func int #f(int #n, int #m) \x7b return #n * 2 - #m; \x7d start var int #x; " : Text) ++
    "meanwhile (#x + 1 < 9) \x7b #x = call #f(#x * 2, #x - 1); \x7d done end"

/-- The first argument is used behind the code of the second one. The variable for results is left out. -/
theorem compile_temporaries_used_once_arguments : ∃ compiler compilation,
    Compiler.standard = .ok compiler ∧ compiler.compile argumentsText = .ok compilation ∧
    compilation.environment.symbols.drawn = [4, 5, 7, 8, 9, 10] ∧
    compilation.code.UsesOnce 9 := by
  have computed : (Compiler.standard.toOption.bind fun compiler =>
      (compiler.compile argumentsText).toOption.bind fun compilation =>
        some compilation.environment.symbols.drawn) = some [4, 5, 7, 8, 9, 10] := by
    decide +kernel
  obtain ⟨compiler, standard, computed⟩ := ok_of_toOption_bind computed
  obtain ⟨compilation, compiled, computed⟩ := ok_of_toOption_bind computed
  have drawn := Option.some.inj computed
  have isScratch : compilation.Scratch 9 := SymbolTable.mem_drawn.mp (by rw [drawn]; decide)
  exact ⟨compiler, compilation, standard, compiled, drawn,
    (compile_temporaries_used_once standard compiled).1 9 isScratch⟩

end Compiler

end ThreeAddress

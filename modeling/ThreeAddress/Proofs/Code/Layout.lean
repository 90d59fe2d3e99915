import ThreeAddress.Proofs.Source.Semantics

/-!
How the code of a program is laid out.

Each relation says what the instructions for a part of a program look like, without saying how they are made.
Temporaries and labels are numbers that are drawn in order, from a first one up to a last one.
-/

namespace ThreeAddress

open Source List

/-- The labels that stand in code, in their order. -/
def Code.labels (code : Code) : List Nat := code.filterMap fun instruction =>
    match instruction with
    | .label place => some place
    | _ => none

/-- The variables that operations in code write, in their order. -/
def Code.results (code : Code) : List Handle := code.filterMap fun instruction =>
    match instruction with
    | .binary _ result _ _ => some result
    | _ => none

/-- What the code of all statements shares: the variable for results, the temporaries, and where functions begin. -/
structure Layout where
  slot : Handle
  scratch : Handle → Prop
  entry? : Handle → Option Nat

section

variable (scratch owned : Handle → Prop)

/-- Code that leaves the value of an expression in a place, and the temporaries that it takes. -/
inductive Computes : Nat → Expression → Code → Value → Nat → Prop where
  | name {count : Nat} {handle : Handle} (own : owned handle) :
    Computes count (.name handle) [] (.symbol handle) count
  | literal {count : Nat} {handle : Handle} :
    Computes count (.literal handle) [] (.constant handle) count
  | binary {low middle high : Nat} {operation : BinaryOperation} {left right : Expression}
    {before after : Code} {first second : Value}
    (ofLeft : Computes low left before first middle)
    (ofRight : Computes middle right after second high) (fresh : scratch (high : Nat)) :
    Computes low (.binary operation left right)
      (before ++ after ++ [.binary operation (high : Nat) first second])
      (.symbol (high : Nat)) (high + 1)

/-- Code that leaves the values of some expressions in places, one after the other. -/
inductive ComputesAll : Nat → List Expression → Code → List Value → Nat → Prop where
  | nil {count : Nat} : ComputesAll count [] [] [] count
  | cons {low middle high : Nat} {expression : Expression} {rest : List Expression}
    {before after : Code} {value : Value} {values : List Value}
    (head : Computes scratch owned low expression before value middle)
    (tail : ComputesAll middle rest after values high) :
    ComputesAll low (expression :: rest) (before ++ after) (value :: values) high

end

/-- The moves that give variables their values. -/
def moves (targets : List Handle) (values : List Value) : Code :=
  List.zipWith Instruction.move targets values

section

variable (program : Program) (layout : Layout) (owned : Handle → Prop)

/-- Code that calls a function. -/
inductive Calls : Call → Code → Prop where
  | mk {low high entry : Nat} {call : Call} {function : Function} {code : Code}
    {values : List Value} (known : program.function? call.function = some function)
    (start : layout.entry? call.function = some entry)
    (arguments : ComputesAll layout.scratch owned low call.arguments code values high)
    (count : values.length = function.params.length) :
    Calls call (code ++ moves function.params values ++ [.call entry])

/--
Code of a statement, and the labels that it takes.

Inside a conditional the labels of its branches are given: that of the next branch, and that of the end.
-/
inductive Coded : Option (Nat × Nat) → Nat → Statement → Code → Nat → Prop where
  | skip {low : Nat} : Coded none low .skip [] low
  | assign {low high first last : Nat} {target : Handle} {expression : Expression} {code : Code}
    {value : Value} (own : owned target)
    (computes : Computes layout.scratch owned first expression code value last)
    (labels : low ≤ high) :
    Coded none low (.assign target expression) (code ++ [.move target value]) high
  | assignCall {low high : Nat} {target : Handle} {call : Call} {code : Code} (own : owned target)
    (calls : Calls program layout owned call code) (labels : low ≤ high) :
    Coded none low (.assignCall target call) (code ++ [.move target (.symbol layout.slot)]) high
  | call {low high : Nat} {call : Call} {code : Code}
    (calls : Calls program layout owned call code) (labels : low ≤ high) :
    Coded none low (.call call) code high
  | ret {low high first last : Nat} {expression : Expression} {code : Code} {value : Value}
    (computes : Computes layout.scratch owned first expression code value last)
    (labels : low ≤ high) :
    Coded none low (.ret expression) (code ++ [.move layout.slot value, .ret]) high
  | seq {low middle high : Nat} {first second : Statement} {before after : Code}
    (ofFirst : Coded none low first before middle)
    (ofSecond : Coded none middle second after high) :
    Coded none low (.seq first second) (before ++ after) high
  | loop {low exit high first last : Nat} {expression : Expression} {body : Statement}
    {test code : Code} {value : Value}
    (computes : Computes layout.scratch owned first expression test value last)
    (later : low < exit) (ofBody : Coded none (exit + 1) body code high) :
    Coded none low (.loop expression body)
      ([.label low] ++ test ++ [.ifFalse value exit] ++ code ++ [.goto low, .label exit]) high
  | cond {low stop high : Nat} {test : Expression} {yes no : Statement} {code : Code}
    (branches : Coded (some (low, stop)) (stop + 1) (.cond test yes no) code
      high) (marks : low ≤ stop) :
    Coded none low (.cond test yes no) code high
  -- The last branch jumps to the label right behind it.
  | last {stop low middle high first last : Nat} {expression : Expression} {yes : Statement}
    {test code : Code} {value : Value}
    (computes : Computes layout.scratch owned first expression test value last)
    (labels : low ≤ middle) (ofYes : Coded none middle yes code high) :
    Coded (some (stop, stop)) low (.cond expression yes .skip)
      (test ++ [.ifFalse value stop] ++ code ++ [.goto stop, .label stop]) high
  | branch {mark stop low middle further high first last : Nat} {expression other : Expression}
    {yes otherYes otherNo : Statement} {test code others : Code} {value : Value}
    (computes : Computes layout.scratch owned first expression test value last)
    (labels : low ≤ middle) (ofYes : Coded none middle yes code further)
    (ofNo : Coded (some (mark + 1, stop)) further (.cond other otherYes otherNo) others high) :
    Coded (some (mark, stop)) low (.cond expression yes (.cond other otherYes otherNo))
      (test ++ [.ifFalse value mark] ++ code ++ [.goto stop, .label mark] ++ others) high
  | otherwise {mark low middle further high first last : Nat} {expression : Expression}
    {yes no : Statement} {test code others : Code} {value : Value}
    (computes : Computes layout.scratch owned first expression test value last)
    (labels : low ≤ middle) (ofYes : Coded none middle yes code further)
    (ofNo : Coded none further no others high) :
    Coded (some (mark, mark + 1)) low (.cond expression yes no)
      (test ++ [.ifFalse value mark] ++ code ++ [.goto (mark + 1), .label mark] ++
        (others ++ [.label (mark + 1)])) high

end

section

variable (program : Program) (layout : Layout) (owned : Nat → Handle → Prop)

/-- Code of functions one after the other, each behind its entry label. Entry labels are numbered in order. -/
inductive FunctionsCoded : Nat → Nat → List (Nat × Function) → Code → Nat → Prop where
  | nil {entry low : Nat} : FunctionsCoded entry low [] [] low
  | cons {entry low middle high scope : Nat} {function : Function} {rest : List (Nat × Function)}
    {body code : Code} (start : layout.entry? function.handle = some entry)
    (head : Coded program layout (owned scope) none low function.body body middle)
    (tail : FunctionsCoded (entry + 1) middle rest code high) :
    FunctionsCoded entry low ((scope, function) :: rest) (.label entry :: body ++ code) high

/-- Code of a program: that of the main block, behind a jump over its functions if it has any. -/
inductive ProgramCoded (scope : Nat) : List (Nat × Function) → Code → Prop where
  | plain {high : Nat} {main : Code}
    (ofMain : Coded program layout (owned scope) none 0 program.main main high) :
    ProgramCoded scope [] main
  | behind {middle high : Nat} {functions : List (Nat × Function)} {code main : Code}
    (ofFunctions : FunctionsCoded program layout owned 1 (1 + functions.length) functions code
      middle)
    (ofMain : Coded program layout (owned scope) none middle program.main main high)
    (filled : functions ≠ []) :
    ProgramCoded scope functions (.goto 0 :: code ++ .label 0 :: main)

end

namespace Code

@[simp]
theorem labels_append (first second : Code) : (first ++ second).labels = first.labels ++ second.labels :=
  filterMap_append

@[simp]
theorem results_append (first second : Code) :
    (first ++ second).results = first.results ++ second.results :=
  filterMap_append

@[simp]
theorem labels_nil : labels [] = [] := rfl

@[simp]
theorem labels_label (place : Nat) (code : Code) :
    labels (.label place :: code) = place :: code.labels := rfl

@[simp]
theorem labels_binary (operation : BinaryOperation) (result : Handle) (left right : Value)
    (code : Code) : labels (.binary operation result left right :: code) = code.labels := rfl

@[simp]
theorem labels_move (target : Handle) (source : Value) (code : Code) :
    labels (.move target source :: code) = code.labels := rfl

@[simp]
theorem labels_goto (place : Nat) (code : Code) : labels (.goto place :: code) = code.labels := rfl

@[simp]
theorem labels_ifFalse (condition : Value) (place : Nat) (code : Code) :
    labels (.ifFalse condition place :: code) = code.labels := rfl

@[simp]
theorem labels_call (place : Nat) (code : Code) : labels (.call place :: code) = code.labels := rfl

@[simp]
theorem labels_ret (code : Code) : labels (.ret :: code) = code.labels := rfl

end Code

/-- Whether an instruction is an operation or a copy. -/
def Instruction.computes : Instruction → Bool
  | binary .. => true
  | move .. => true
  | _ => false

theorem Code.labels_of_computes {code : Code} (computes : code.all Instruction.computes = true) :
    code.labels = [] := by
  refine filterMap_eq_nil_iff.mpr fun instruction member => ?_
  have computing := all_eq_true.mp computes instruction member
  cases instruction with
  | label => cases computing
  | _ => rfl

section Expressions

variable {scratch owned : Handle → Prop} {low high : Nat} {code : Code} {values : List Value}
  {expression : Expression} {value : Value}

theorem Computes.all_computes (computes : Computes scratch owned low expression code value high) :
    code.all Instruction.computes = true := by
  induction computes with
  | name => rfl
  | literal => rfl
  | binary _ _ _ ihLeft ihRight => simp [ihLeft, ihRight, Instruction.computes]

theorem ComputesAll.all_computes {expressions : List Expression}
    (computes : ComputesAll scratch owned low expressions code values high) :
    code.all Instruction.computes = true := by
  induction computes with
  | nil => rfl
  | cons head _ ih => simp [head.all_computes, ih]

theorem Computes.labels (computes : Computes scratch owned low expression code value high)
    : code.labels = [] :=
  Code.labels_of_computes computes.all_computes

theorem moves_all_computes (targets : List Handle) (values : List Value) :
    (moves targets values).all Instruction.computes = true := by
  rw [moves, ← map_uncurry_zip_eq_zipWith, all_map]
  exact all_eq_true.mpr fun _ _ => rfl

end Expressions

section Labels

variable {program : Program} {layout : Layout} {owned : Handle → Prop} {call : Call} {code : Code}

/-- The code of a call is operations and copies in front of the call itself. -/
theorem Calls.exists_front (calls : Calls program layout owned call code) :
    ∃ front entry, code = front ++ [.call entry] ∧ front.all Instruction.computes = true := by
  cases calls with
  | mk _ _ arguments _ =>
    exact ⟨_, _, rfl, by rw [all_append, arguments.all_computes, moves_all_computes]; rfl⟩

theorem Calls.labels (calls : Calls program layout owned call code) : code.labels = [] := by
  obtain ⟨front, entry, rfl, computes⟩ := calls.exists_front
  simp [Code.labels_of_computes computes]

/-- The labels that the code of a statement may hold. -/
def Taken (low high : Nat) : Option (Nat × Nat) → Nat → Prop
  | none, label => low ≤ label ∧ label < high
  | some (mark, stop), label => (mark ≤ label ∧ label ≤ stop) ∨ (low ≤ label ∧ label < high)

/-- The code of a statement holds each of its labels once, and takes them from those it was given. -/
theorem Coded.labels {mode : Option (Nat × Nat)} {low high : Nat} {statement : Statement}
    (coded : Coded program layout owned mode low statement code high)
    (given : ∀ mark stop, mode = some (mark, stop) → stop < low) :
    low ≤ high ∧ code.labels.Nodup ∧ (∀ label ∈ code.labels, Taken low high mode label) ∧
      ∀ mark stop, mode = some (mark, stop) → mark ≤ stop := by
  induction coded with
  | skip => simp
  | assign _ computes labels | ret computes labels => simp [computes.labels, labels]
  | assignCall _ calls labels | call calls labels => simp [calls.labels, labels]
  | seq ofFirst ofSecond ihFirst ihSecond =>
    obtain ⟨below, once, within, -⟩ := ihFirst (by simp)
    obtain ⟨above, onceLater, withinLater, -⟩ := ihSecond (by simp)
    simp only [Taken, Code.labels_append, nodup_append, mem_append] at *
    grind
  | loop computes later _ ih | last computes labels _ ih =>
    obtain ⟨below, once, within, -⟩ := ih (by simp)
    simp only [Taken, Code.labels_append, Code.labels_label, Code.labels_ifFalse, Code.labels_goto,
      Code.labels_nil, computes.labels, nodup_append, mem_append] at *
    grind
  | cond branches marks ih =>
    obtain ⟨below, once, within, -⟩ := ih (by simp)
    simp only [Taken] at *
    grind
  | branch computes labels _ _ ihYes ihNo | otherwise computes labels _ _ ihYes ihNo =>
    obtain ⟨below, once, within, -⟩ := ihYes (by simp)
    obtain ⟨above, onceLater, withinLater, marks⟩ := ihNo (by grind)
    simp only [Taken, Code.labels_append, Code.labels_label, Code.labels_ifFalse, Code.labels_goto,
      Code.labels_nil, computes.labels, nodup_append, mem_append] at *
    grind

end Labels

section Functions

variable {program : Program} {layout : Layout} {owned : Nat → Handle → Prop}
  {high : Nat} {functions : List (Nat × Function)} {code : Code}

/-- The code of functions holds each of its labels once: entry labels, and those taken by bodies. -/
theorem FunctionsCoded.labels {entry low : Nat}
    (coded : FunctionsCoded program layout owned entry low functions code high)
    (above : entry + functions.length ≤ low) :
    low ≤ high ∧ code.labels.Nodup ∧ ∀ label ∈ code.labels,
      (entry ≤ label ∧ label < entry + functions.length) ∨ (low ≤ label ∧ label < high) := by
  induction coded with
  | nil => simp
  | @cons entry low middle high scope function rest body code start head tail ih =>
    simp only [length_cons] at above
    obtain ⟨inBody, once, within, -⟩ := head.labels (by simp)
    obtain ⟨inRest, onceLater, withinLater⟩ := ih (by omega)
    simp only [Taken] at within
    simp only [cons_append, Code.labels_label, Code.labels_append, nodup_cons,
      nodup_append, mem_cons, mem_append, length_cons]
    -- Entry labels are below all others, and each body takes its own behind those of the last.
    refine ⟨by omega, ⟨?_, once, onceLater, ?_⟩, ?_⟩
    · rintro (inside | inside)
      · have := within entry inside
        omega
      · have := withinLater entry inside
        omega
    · intro label inside other later same
      have := within label inside
      have := withinLater other later
      omega
    · rintro label (rfl | inside | inside)
      · exact .inl (by omega)
      · have := within label inside
        exact .inr (by omega)
      · rcases withinLater label inside with bounds | bounds
        · exact .inl (by omega)
        · exact .inr (by omega)

/-- The main block behind functions takes labels of its own. All of them are below the next one. -/
theorem FunctionsCoded.labels_main {scope middle : Nat} {main : Code}
    (ofFunctions : FunctionsCoded program layout owned 1 (1 + functions.length)
      functions code middle)
    (ofMain : Coded program layout (owned scope) none middle program.main main high) :
    (Code.labels (.goto 0 :: code ++ .label 0 :: main)).Nodup ∧
      ∀ label ∈ Code.labels (.goto 0 :: code ++ .label 0 :: main), label < high := by
  obtain ⟨above, once, within⟩ := ofFunctions.labels (Nat.le_refl _)
  obtain ⟨inMain, onceMain, withinMain, -⟩ := ofMain.labels (by simp)
  simp only [Taken] at withinMain
  simp only [cons_append, Code.labels_goto, Code.labels_append, Code.labels_label,
    nodup_append, nodup_cons, mem_append, mem_cons]
  refine ⟨⟨once, ⟨?_, onceMain⟩, ?_⟩, ?_⟩
  -- The label of the main block is the first one, and it is drawn before all others.
  · intro inside
    have := withinMain 0 inside
    omega
  · rintro label inside other (rfl | later) same
    · have := within label inside
      omega
    · have := within label inside
      have := withinMain other later
      omega
  · rintro label (inside | rfl | inside)
    · have := within label inside
      omega
    · omega
    · exact (withinMain label inside).2

end Functions

end ThreeAddress

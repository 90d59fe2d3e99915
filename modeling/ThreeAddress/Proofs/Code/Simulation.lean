import ThreeAddress.Proofs.Code.Binding

/-!
Code does what its statement does.

The machine runs over the code of a statement to the place behind it, or to an instruction that returns.
Its store then agrees with that of the statement in all but temporaries.
-/

namespace ThreeAddress

open Source List

variable {V : Type} {meaning : Interpretation V} {program : Program} {layout : Layout}
  {whole : Code} {owned : Handle → Prop}

/-- A statement that uses no temporaries as variables, and calls no function with one of its own variables as a parameter. -/
structure Settled (program : Program) (layout : Layout) (owned : Handle → Prop)
    (statement : Statement) : Prop where
  lasting : ∀ handle, owned handle → ¬ layout.scratch handle
  apart : ∀ callee ∈ statement.callees, ∀ function, program.function? callee = some function →
    ∀ param ∈ function.params, ¬ owned param

theorem Settled.part {statement part : Statement} (settled : Settled program layout owned statement)
    (fewer : ∀ callee ∈ part.callees, callee ∈ statement.callees) :
    Settled program layout owned part :=
  ⟨settled.lasting, fun callee member => settled.apart callee (fewer callee member)⟩

/-- Code of a program in which every function stands behind its entry label. -/
structure Installed (program : Program) (layout : Layout) (whole : Code) : Prop where
  labels : whole.labels.Nodup
  slot : ¬ layout.scratch layout.slot
  params : ∀ {handle function}, program.function? handle = some function →
    function.params.Nodup ∧ ∀ param ∈ function.params, ¬ layout.scratch param
  functions : ∀ {handle function entry}, program.function? handle = some function →
    layout.entry? handle = some entry →
    ∃ owned place low body high, whole[place]? = some (.label entry) ∧ whole.At (place + 1) body ∧
      Coded program layout owned none low function.body body high ∧
      Settled program layout owned function.body

/-- What the machine does where a statement ends with some outcome and store. -/
def Arrives (meaning : Interpretation V) (layout : Layout) (whole : Code) (machine : Machine V)
    (stop : Nat) (after : Store V) : Source.Outcome → Prop
  | .normal => ∃ store, Agree layout.scratch after store ∧
      machine.Reaches meaning whole ⟨stop, store, machine.stack⟩
  | .returned => ∃ store place, Agree layout.scratch after store ∧ whole[place]? = some .ret ∧
      machine.Reaches meaning whole ⟨place, store, machine.stack⟩
  | .stuck => True

variable {outcome : Source.Outcome} {stop place : Nat} {store : Store V} {test code : Code}
  {value : Value} {statement : Statement} {machine : Machine V}

theorem Arrives.after {other : Machine V} (reaches : machine.Reaches meaning whole other)
    (same : other.stack = machine.stack)
    (arrives : Arrives meaning layout whole other stop store outcome) :
    Arrives meaning layout whole machine stop store outcome := by
  cases outcome with
  | normal =>
    obtain ⟨final, agree, further⟩ := arrives
    exact ⟨final, agree, same ▸ reaches.trans further⟩
  | returned =>
    obtain ⟨final, place, agree, returns, further⟩ := arrives
    exact ⟨final, place, agree, returns, same ▸ reaches.trans further⟩
  | stuck => trivial

variable {middle : Nat}

/-- A machine that arrives normally may go on, and any other has arrived. -/
theorem Arrives.onward {stop : Nat} {store : Store V} {outcome : Source.Outcome}
    (arrives : Arrives meaning layout whole machine middle store outcome)
    (onward : ∀ final, Machine.Reaches meaning whole ⟨middle, final, machine.stack⟩
      ⟨stop, final, machine.stack⟩) : Arrives meaning layout whole machine stop store outcome := by
  cases outcome with
  | normal =>
    obtain ⟨final, agree, reaches⟩ := arrives
    exact ⟨final, agree, reaches.trans (onward final)⟩
  | returned => exact arrives
  | stuck => trivial

/-- Where a statement does not end normally, it does not matter what stands behind it. -/
theorem Arrives.elsewhere (arrives : Arrives meaning layout whole machine middle store outcome)
    (left : outcome ≠ .normal) : Arrives meaning layout whole machine stop store outcome := by
  cases outcome with
  | normal => exact absurd rfl left
  | returned => exact arrives
  | stuck => trivial

section Steps

variable {place target label : Nat} {store : Store V} {stack : List Nat}

theorem reaches_label (here : whole[place]? = some (.label label)) :
    Machine.Reaches meaning whole ⟨place, store, stack⟩ ⟨place + 1, store, stack⟩ :=
  .single (by simp only [Machine.step, here, Machine.advance])

theorem jump_eq (once : whole.labels.Nodup) (there : whole[target]? = some (.label label))
    (machine : Machine V) :
    machine.jump whole label = .running { machine with place := target } := by
  simp only [Machine.jump, Code.position?_eq once there]

theorem advances_goto (once : whole.labels.Nodup) (here : whole[place]? = some (.goto label))
    (there : whole[target]? = some (.label label)) :
    Machine.Advances meaning whole ⟨place, store, stack⟩ ⟨target, store, stack⟩ := by
  refine (Machine.Reaches.refl _).step ?_ (.refl _)
  simp only [Machine.step, here, jump_eq once there]

variable {value : Value}

theorem reaches_passed (here : whole[place]? = some (.ifFalse value label))
    (holds : meaning.holds (value.read meaning store) = true) :
    Machine.Reaches meaning whole ⟨place, store, stack⟩ ⟨place + 1, store, stack⟩ :=
  .single (by simp only [Machine.step, here, holds, if_true, Machine.advance])

theorem reaches_failed (once : whole.labels.Nodup)
    (here : whole[place]? = some (.ifFalse value label))
    (there : whole[target]? = some (.label label))
    (fails : meaning.holds (value.read meaning store) = false) :
    Machine.Reaches meaning whole ⟨place, store, stack⟩ ⟨target + 1, store, stack⟩ := by
  refine Machine.Advances.reaches ((Machine.Reaches.refl _).step ?_ (reaches_label there))
  simp only [Machine.step, here, fails, Bool.false_eq_true, if_false, jump_eq once there]

end Steps

variable {mark : Nat} {others : Code}

theorem Code.At.guarded {yes : Code} (placed : whole.At place
      (test ++ [.ifFalse value mark] ++ yes ++ [.goto stop, .label mark] ++ others)) :
    whole.At place test ∧ whole[place + test.length]? = some (.ifFalse value mark) ∧
      whole.At (place + test.length + 1) yes ∧
      whole[place + test.length + 1 + yes.length]? = some (.goto stop) ∧
      whole[place + test.length + 1 + yes.length + 1]? = some (.label mark) ∧
      whole.At (place + test.length + 1 + yes.length + 2) others := by
  -- The parts stand one behind the other, each as far on as those before it are long.
  have jumps := placed.left.right
  have rest := placed.right
  have body := placed.left.left.right
  simp only [length_append, length_cons, length_nil, Nat.zero_add,
    ← Nat.add_assoc] at jumps rest body
  exact ⟨placed.left.left.left.left, placed.left.left.left.right.head, body, jumps.head,
    jumps.tail.head, rest⟩

variable {mode : Option (Nat × Nat)} {low high : Nat}

theorem Coded.ends (coded : Coded program layout owned mode low statement code high)
    (branches : mode = some (mark, stop)) : code.getLast? = some (.label stop) := by
  induction coded generalizing mark stop with
  | skip | assign | assignCall | call | ret | seq | loop | cond => cases branches
  | last =>
    cases branches
    rw [getLast?_append]
    rfl
  | branch _ _ _ _ _ ih =>
    cases branches
    rw [getLast?_append, ih rfl]
    rfl
  | otherwise =>
    cases branches
    rw [getLast?_append, getLast?_append]
    rfl

theorem Code.At.last {part : Code} {instruction : Instruction} (placed : whole.At place part)
    (ends : part.getLast? = some instruction) :
    ∃ final, final + 1 = place + part.length ∧ whole[final]? = some instruction := by
  rw [getLast?_eq_getElem?] at ends
  have inside : part.length - 1 < part.length := (List.getElem?_eq_some_iff.mp ends).1
  exact ⟨place + (part.length - 1), by omega, (placed _ inside).trans ends⟩

/-- Code behind a branch, up to the label at the end. -/
def Behind (program : Program) (layout : Layout) (owned : Handle → Prop) (stop : Nat)
    (no : Statement) (others : Code) : Prop :=
  (no = .skip ∧ others = []) ∨
    (∃ mode low high, Coded program layout owned mode low no others high) ∨
    ∃ low high front, others = front ++ [.label stop] ∧
      Coded program layout owned none low no front high

variable {no : Statement}

theorem Coded.guarded {expression : Expression} {yes : Statement}
    (coded : Coded program layout owned mode low (.cond expression yes no) code high) :
    ∃ mark stop first last lower higher test value body others,
      code = test ++ [.ifFalse value mark] ++ body ++ [.goto stop, .label mark] ++ others ∧
      Computes layout.scratch owned first expression test value last ∧
      Coded program layout owned none lower yes body higher ∧
      Behind program layout owned stop no others ∧ code.getLast? = some (.label stop) := by
  -- Labels are drawn for a conditional, and then it is its first branch.
  obtain ⟨mark, stop, lower, coded⟩ : ∃ mark stop lower,
      Coded program layout owned (some (mark, stop)) lower (.cond expression yes no) code high := by
    cases coded with
    | cond branches _ => exact ⟨_, _, _, branches⟩
    | last computes labels ofYes => exact ⟨_, _, _, .last computes labels ofYes⟩
    | branch computes labels ofYes ofNo => exact ⟨_, _, _, .branch computes labels ofYes ofNo⟩
    | otherwise computes labels ofYes ofNo =>
      exact ⟨_, _, _, .otherwise computes labels ofYes ofNo⟩
  -- A last branch jumps to the label behind its test, as that is where it ends.
  have ends := coded.ends rfl
  cases coded with
  | last computes _ ofYes =>
    exact ⟨mark, mark, _, _, _, _, _, _, _, [], (append_nil _).symm, computes, ofYes,
      .inl ⟨rfl, rfl⟩, ends⟩
  | branch computes _ ofYes ofNo =>
    exact ⟨_, _, _, _, _, _, _, _, _, _, rfl, computes, ofYes, .inr (.inl ⟨_, _, _, ofNo⟩), ends⟩
  | otherwise computes _ ofYes ofNo =>
    exact ⟨_, _, _, _, _, _, _, _, _, _, rfl, computes, ofYes, .inr (.inr ⟨_, _, _, rfl, ofNo⟩),
      ends⟩

section Parts

variable {place first last : Nat} {expression : Expression} {test : Code} {value : Value}
  {store other : Store V}

theorem reaches_value (meaning : Interpretation V) (stack : List Nat)
    (lasting : ∀ handle, owned handle → ¬ layout.scratch handle)
    (computes : Computes layout.scratch owned first expression test value last)
    (placed : whole.At place test) (agree : Agree layout.scratch store other) :
    ∃ final, Machine.Reaches meaning whole ⟨place, other, stack⟩
        ⟨place + test.length, final, stack⟩ ∧
      value.read meaning final = expression.eval meaning store ∧
      Agree layout.scratch store final := by
  obtain ⟨final, reaches, found, framed⟩ := computes.executes lasting other stack placed
  refine ⟨final, reaches, ?_, agree.trans framed.agree⟩
  rw [found, computes.eval_eq lasting agree]

theorem Calls.enters (meaning : Interpretation V) (stack : List Nat)
    (installed : Installed program layout whole) {call : Call} {code : Code}
    (calls : Calls program layout owned call code) {statement : Statement}
    (settled : Settled program layout owned statement)
    (member : call.function ∈ statement.callees) (placed : whole.At place code)
    (agree : Agree layout.scratch store other) :
    ∃ function inner start low body high, program.function? call.function = some function ∧
      whole.At start body ∧ Coded program layout inner none low function.body body high ∧
      Settled program layout inner function.body ∧
      ∃ final, Agree layout.scratch (call.enter meaning function store) final ∧
        Machine.Advances meaning whole ⟨place, other, stack⟩
          ⟨start, final, (place + code.length) :: stack⟩ := by
  cases calls with
  | @mk low high entry call function code values known start arguments count =>
    obtain ⟨inner, target, lower, body, higher, labelled, bodyPlaced, coded, innerSettled⟩ :=
      installed.functions known start
    obtain ⟨distinct, lasting⟩ := installed.params known
    obtain ⟨found, reaches, isFound, framed⟩ :=
      @ComputesAll.executes V meaning whole _ _ _ _ _ _ _ settled.lasting arguments _ other stack
        placed.left.left
    -- Parameters are bound to the values that the source finds for the arguments.
    refine ⟨function, inner, target + 1, lower, body, higher, known, bodyPlaced, coded,
      innerSettled, found.bind function.params (call.arguments.map (Expression.eval meaning store)),
      (agree.trans framed.agree).bind _ _, ?_⟩
    -- No argument is found in a parameter: those are neither temporaries nor variables of the caller.
    have apart : ∀ value ∈ values, ∀ param ∈ function.params, value ≠ .symbol param := by
      rintro value isValue param isParam rfl
      rcases arguments.within _ isValue with own | ⟨isScratch, -⟩
      · exact settled.apart _ member function known param isParam own
      · exact lasting param isParam isScratch
    have bound := @executes_moves V meaning whole _ _ _ found stack distinct count apart
      placed.left.right
    rw [isFound, ← arguments.eval_eq settled.lasting agree] at bound
    have here : whole[place + code.length + (moves function.params values).length]? =
        some (.call entry) := by
      have jump := placed.right.head
      rwa [length_append, ← Nat.add_assoc] at jump
    refine (reaches.trans bound).step ?_ (reaches_label labelled)
    simp only [Machine.step, here, jump_eq installed.labels labelled, length_append,
      length_singleton, ← Nat.add_assoc]

theorem reaches_back {back : Nat} {stack : List Nat} (returns : whole[place]? = some .ret) :
    Machine.Reaches meaning whole ⟨place, store, back :: stack⟩ ⟨back, store, stack⟩ :=
  .single (by simp only [Machine.step, returns])

end Parts

variable {head exit : Nat} {body : Code}

/-- A loop is a label in front of a branch that jumps back to it. -/
theorem Code.At.unlooped (placed : whole.At place
      ([.label head] ++ test ++ [.ifFalse value exit] ++ body ++ [.goto head, .label exit])) :
    whole[place]? = some (.label head) ∧ whole.At (place + 1)
      (test ++ [.ifFalse value exit] ++ body ++ [.goto head, .label exit] ++ []) := by
  simp only [append_assoc, singleton_append] at placed
  exact ⟨placed.head, by simpa using placed.tail⟩

section Conditionals

variable {mark stop place first last : Nat} {expression : Expression} {code test body others : Code}
  {value : Value} {store other : Store V}
  (shape : code = test ++ [.ifFalse value mark] ++ body ++ [.goto stop, .label mark] ++ others)
  (placed : whole.At place code)
include shape placed

theorem reaches_yes (stack : List Nat)
    (lasting : ∀ handle, owned handle → ¬ layout.scratch handle)
    (computes : Computes layout.scratch owned first expression test value last)
    (agree : Agree layout.scratch store other)
    (holds : meaning.holds (expression.eval meaning store) = true) :
    ∃ final, Agree layout.scratch store final ∧ Machine.Reaches meaning whole ⟨place, other, stack⟩
        ⟨place + test.length + 1, final, stack⟩ := by
  rw [shape] at placed
  obtain ⟨testPlaced, guard, -⟩ := placed.guarded
  obtain ⟨final, reaches, found, agrees⟩ :=
    reaches_value meaning stack lasting computes testPlaced agree
  rw [← found] at holds
  exact ⟨final, agrees, reaches.trans (reaches_passed guard holds)⟩

theorem reaches_no (stack : List Nat) (installed : Installed program layout whole)
    (lasting : ∀ handle, owned handle → ¬ layout.scratch handle)
    (computes : Computes layout.scratch owned first expression test value last)
    (agree : Agree layout.scratch store other)
    (fails : meaning.holds (expression.eval meaning store) = false) :
    ∃ final, Agree layout.scratch store final ∧ Machine.Reaches meaning whole ⟨place, other, stack⟩
        ⟨place + test.length + 1 + body.length + 2, final, stack⟩ := by
  rw [shape] at placed
  obtain ⟨testPlaced, guard, -, -, mark, -⟩ := placed.guarded
  obtain ⟨final, reaches, found, agrees⟩ :=
    reaches_value meaning stack lasting computes testPlaced agree
  rw [← found] at fails
  exact ⟨final, agrees, reaches.trans (reaches_failed installed.labels guard mark fails)⟩

theorem reaches_end (installed : Installed program layout whole)
    (ends : code.getLast? = some (.label stop)) (final : Store V) (stack : List Nat) :
    Machine.Reaches meaning whole ⟨place + test.length + 1 + body.length, final, stack⟩
      ⟨place + code.length, final, stack⟩ := by
  obtain ⟨target, behind, isEnd⟩ := placed.last ends
  rw [shape] at placed
  obtain ⟨-, -, -, jump, -, -⟩ := placed.guarded
  -- The label at the end is the last instruction, so the machine passes over it to what is behind.
  rw [← behind]
  exact (advances_goto installed.labels jump isEnd).reaches.trans (reaches_label isEnd)

omit placed in
theorem length_guarded :
    place + code.length = place + test.length + 1 + body.length + 2 + others.length := by
  rw [shape]
  simp only [length_append, length_cons, length_nil]
  omega

end Conditionals

variable {after : Store V}

/-- Code behind a branch does what its statement does, if all code of the statement does. -/
theorem Behind.arrives {final : Store V} {stack : List Nat}
    (behind : Behind program layout owned stop no others)
    (runs : no.Runs program layout.slot meaning store outcome after)
    (placed : whole.At place others) (agree : Agree layout.scratch store final)
    (each : ∀ {mode low code high}, Coded program layout owned mode low no code high →
      whole.At place code → Arrives meaning layout whole ⟨place, final, stack⟩
        (place + code.length) after outcome) :
    Arrives meaning layout whole ⟨place, final, stack⟩ (place + others.length) after outcome := by
  rcases behind with ⟨rfl, rfl⟩ | ⟨mode, low, high, coded⟩ | ⟨low, high, front, rfl, coded⟩
  · cases runs
    exact ⟨final, agree, .refl _⟩
  · exact each coded placed
  · -- The label at the end is passed over.
    rw [length_append, ← Nat.add_assoc]
    refine (each coded placed.left).onward fun store => ?_
    exact reaches_label placed.right.head

theorem advances_again (placed : whole.At place
      ([.label head] ++ test ++ [.ifFalse value exit] ++ body ++ [.goto head, .label exit]))
    (meaning : Interpretation V) (installed : Installed program layout whole) (final : Store V)
    (stack : List Nat) :
    Machine.Advances meaning whole ⟨place + 1 + test.length + 1 + body.length, final, stack⟩
      ⟨place, final, stack⟩ := by
  obtain ⟨isHead, branch⟩ := placed.unlooped
  obtain ⟨-, -, -, jump, -⟩ := branch.guarded
  exact advances_goto installed.labels jump isHead

theorem length_looped :
    place + ([.label head] ++ test ++ [.ifFalse value exit] ++ body ++
      [.goto head, .label exit] : Code).length =
      place + 1 + test.length + 1 + body.length + 2 := by
  simp only [length_append, length_cons, length_nil]
  omega

/-- The machine does what a statement does from one store to another, wherever the code stands. -/
def Followed (meaning : Interpretation V) (program : Program) (layout : Layout) (whole : Code)
    (store : Store V) (statement : Statement) (outcome : Source.Outcome) (after : Store V) : Prop :=
  ∀ {owned : Handle → Prop} {mode : Option (Nat × Nat)} {low high place : Nat} {code : Code}
    {other : Store V} (stack : List Nat), Coded program layout owned mode low statement code high →
    Settled program layout owned statement → whole.At place code →
    Agree layout.scratch store other →
    Arrives meaning layout whole ⟨place, other, stack⟩ (place + code.length) after outcome

theorem Calls.returns (installed : Installed program layout whole) {call : Call}
    {function : Function} {other : Store V} (stack : List Nat)
    (calls : Calls program layout owned call code)
    (settled : Settled program layout owned statement) (member : call.function ∈ statement.callees)
    (placed : whole.At place code) (agree : Agree layout.scratch store other)
    (known : program.function? call.function = some function)
    (followed : Followed meaning program layout whole (call.enter meaning function store)
      function.body .returned after) :
    ∃ final, Agree layout.scratch after final ∧ Machine.Reaches meaning whole ⟨place, other, stack⟩
        ⟨place + code.length, final, stack⟩ := by
  obtain ⟨same, inner, start, low, body, high, isSame, bodyPlaced, coded, innerSettled, entered,
    agrees, advances⟩ := calls.enters meaning stack installed settled member placed agree
  cases known.symm.trans isSame
  -- The machine comes to a return of the body with the place behind the call on its stack.
  obtain ⟨final, target, agreesAfter, isReturn, reaches⟩ :=
    followed _ coded innerSettled bodyPlaced agrees
  exact ⟨final, agreesAfter, (advances.reaches.trans reaches).trans (reaches_back isReturn)⟩

theorem followed_of_runs (installed : Installed program layout whole)
    (runs : statement.Runs program layout.slot meaning store outcome after) :
    Followed meaning program layout whole store statement outcome after := by
  -- A run of the source has a case for each way to leave a statement, and the code one path.
  induction runs
  all_goals intro owned mode low high place code other stack coded settled placed agree
  case skip =>
    cases coded
    exact ⟨other, agree, .refl _⟩
  case assign =>
    cases coded with
    | assign own computes _ =>
      obtain ⟨final, reaches, found, agrees⟩ :=
        reaches_value meaning stack settled.lasting computes placed.left agree
      refine ⟨_, agrees.set _ _, reaches.trans (.single ?_)⟩
      simp only [Machine.step, placed.right.head, Machine.advance, found, length_append,
        length_singleton, Nat.add_assoc]
  case ret =>
    cases coded with
    | ret computes _ =>
      obtain ⟨final, reaches, found, agrees⟩ :=
        reaches_value meaning stack settled.lasting computes placed.left agree
      refine ⟨_, _, agrees.set _ _, placed.right.tail.head, reaches.trans (.single ?_)⟩
      simp only [Machine.step, placed.right.head, Machine.advance, found]
  case call known body ih =>
    cases coded with
    | call calls _ =>
      exact calls.returns installed stack settled (mem_singleton_self _) placed agree known ih
  -- A function that ends without a return goes on in the code behind it, so nothing is said.
  case callStuck => trivial
  case assignCall known body ih =>
    cases coded with
    | assignCall own calls _ =>
      obtain ⟨final, agrees, reaches⟩ :=
        calls.returns installed stack settled (mem_singleton_self _) placed.left agree known ih
      -- The variable for results is no temporary, so the machine copies what the function returned.
      have slot := agrees layout.slot installed.slot
      refine ⟨_, agrees.set _ _, reaches.trans (.single ?_)⟩
      simp only [Machine.step, placed.right.head, Machine.advance, Value.read, slot,
        length_append, length_singleton, Nat.add_assoc]
  case assignCallStuck => trivial
  case seq ofFirst ofSecond ihFirst ihSecond =>
    cases coded with
    | seq codedFirst codedSecond =>
      have fewer := settled.part (fun callee member => mem_append_left _ member)
      obtain ⟨middle, agrees, reaches⟩ := ihFirst stack codedFirst fewer placed.left agree
      rw [length_append, ← Nat.add_assoc]
      exact .after reaches rfl (ihSecond stack codedSecond
        (settled.part fun callee member => mem_append_right _ member) placed.right agrees)
  -- A statement that returns or is stuck does not come to the place behind it.
  case seqLeft ofFirst left ih =>
    cases coded with
    | seq codedFirst codedSecond =>
      have fewer := settled.part (fun callee member => mem_append_left _ member)
      exact (ih stack codedFirst fewer placed.left agree).elsewhere left
  case condTrue holds ofYes ih =>
    obtain ⟨mark, stop, first, last, lower, higher, test, value, body, others, shape, computes,
      codedYes, -, ends⟩ := coded.guarded
    obtain ⟨final, agrees, reaches⟩ :=
      reaches_yes shape placed stack settled.lasting computes agree holds
    obtain ⟨-, -, bodyPlaced, -⟩ := (shape ▸ placed).guarded
    have arrives := ih stack codedYes
      (settled.part fun callee member => mem_append_left _ member) bodyPlaced agrees
    exact .after reaches rfl (arrives.onward fun store =>
      reaches_end shape placed installed ends store stack)
  case condFalse fails ofNo ih =>
    obtain ⟨mark, stop, first, last, lower, higher, test, value, body, others, shape, computes,
      -, behind, -⟩ := coded.guarded
    obtain ⟨final, agrees, reaches⟩ :=
      reaches_no shape placed stack installed settled.lasting computes agree fails
    obtain ⟨-, -, -, -, -, othersPlaced⟩ := (shape ▸ placed).guarded
    -- Behind a test are other branches, a last block, or nothing.
    have arrives := behind.arrives ofNo othersPlaced agrees fun codedNo placedNo =>
      ih stack codedNo (settled.part fun callee member => mem_append_right _ member) placedNo
        agrees
    rw [length_guarded shape]
    exact .after reaches rfl arrives
  case loopDone fails =>
    cases coded with
    | loop computes later ofBody =>
      obtain ⟨isHead, branch⟩ := placed.unlooped
      obtain ⟨final, agrees, reaches⟩ :=
        reaches_no rfl branch stack installed settled.lasting computes agree fails
      rw [length_looped]
      exact ⟨final, agrees, (reaches_label isHead).trans reaches⟩
  case loopNext holds ofBody again ihBody ihAgain =>
    have whole := coded
    cases coded with
    | loop computes later codedBody =>
      obtain ⟨isHead, branch⟩ := placed.unlooped
      obtain ⟨entered, agreesEntered, reaches⟩ :=
        reaches_yes rfl branch stack settled.lasting computes agree holds
      obtain ⟨-, -, bodyPlaced, -⟩ := branch.guarded
      obtain ⟨final, agrees, further⟩ := ihBody stack codedBody
        (settled.part fun callee member => member) bodyPlaced agreesEntered
      -- The next turn starts from the same place, with a store that agrees again.
      have back := (advances_again placed meaning installed final stack).reaches
      exact .after (((reaches_label isHead).trans (reaches.trans further)).trans back) rfl
        (ihAgain stack whole settled placed agrees)
  case loopLeft holds ofBody left ih =>
    cases coded with
    | loop computes later codedBody =>
      obtain ⟨isHead, branch⟩ := placed.unlooped
      obtain ⟨entered, agreesEntered, reaches⟩ :=
        reaches_yes rfl branch stack settled.lasting computes agree holds
      obtain ⟨-, -, bodyPlaced, -⟩ := branch.guarded
      have arrives := ih stack codedBody (settled.part fun callee member => member) bodyPlaced
        agreesEntered
      exact .after ((reaches_label isHead).trans reaches) rfl (arrives.elsewhere left)

end ThreeAddress

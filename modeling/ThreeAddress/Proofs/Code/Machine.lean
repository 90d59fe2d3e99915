import ThreeAddress.Proofs.Code.Layout

/-!
The machine that executes code.

It has a place in the code, a store of values and a stack of places to return to.
Behind the last instruction it halts, and a jump to a label that does not stand in the code jams it.
-/

namespace ThreeAddress

variable {V : Type}

/-- The state of the machine. -/
structure Machine (V : Type) where
  place : Nat
  store : Store V
  stack : List Nat := []

/-- What a step leads to. -/
inductive Progress (V : Type) where
  | running (machine : Machine V)
  | halted (store : Store V)
  | jammed

/-- The value of an operand. -/
def Value.read (meaning : Interpretation V) (store : Store V) : Value → V
  | symbol handle => store handle
  | constant handle => meaning.literal handle

/-- Where a label stands in code. -/
def Code.position? (code : Code) (label : Nat) : Option Nat := code.idxOf? (.label label)

namespace Machine

/-- Goes on behind the current instruction, with another store. -/
def advance (machine : Machine V) (store : Store V) : Progress V :=
  .running { machine with place := machine.place + 1, store }

/-- Goes on at a label. -/
def jump (code : Code) (label : Nat) (machine : Machine V) : Progress V :=
  match code.position? label with
  | some place => .running { machine with place }
  | none => .jammed

/-- Executes one instruction. -/
def step (meaning : Interpretation V) (code : Code) (machine : Machine V) : Progress V :=
  match code[machine.place]? with
  | none => .halted machine.store
  | some (.binary operation result left right) =>
    machine.advance (machine.store.set result (meaning.apply operation
      (left.read meaning machine.store) (right.read meaning machine.store)))
  | some (.move target source) =>
    machine.advance (machine.store.set target (source.read meaning machine.store))
  | some (.goto label) => machine.jump code label
  | some (.ifFalse condition label) =>
    if meaning.holds (condition.read meaning machine.store) then machine.advance machine.store
    else machine.jump code label
  | some (.label _) => machine.advance machine.store
  | some (.call label) =>
    { machine with stack := (machine.place + 1) :: machine.stack }.jump code label
  | some .ret =>
    match machine.stack with
    | [] => .halted machine.store
    | place :: stack => .running { machine with place, stack }

/-- Executes instructions until the machine stops, but no more than the given number. -/
def run (meaning : Interpretation V) (code : Code) : Nat → Machine V → Progress V
  | 0, machine => .running machine
  | count + 1, machine =>
    match machine.step meaning code with
    | .running next => run meaning code count next
    | stopped => stopped

variable {meaning : Interpretation V} {code : Code} {machine other : Machine V}

/-- A run may be cut in two. -/
theorem run_add {first second : Nat} {middle : Machine V}
    (reaches : machine.run meaning code first = .running middle) :
    machine.run meaning code (first + second) = middle.run meaning code second := by
  induction first generalizing machine with
  | zero =>
    cases reaches
    rw [Nat.zero_add]
  | succ first ih =>
    rw [Nat.add_right_comm, run]
    rw [run] at reaches
    cases stepped : machine.step meaning code with
    | running next =>
      rw [stepped] at reaches
      exact ih reaches
    | halted | jammed =>
      rw [stepped] at reaches
      cases reaches

theorem run_stopped {first second : Nat}
    (stopped : ∀ middle, machine.run meaning code first ≠ .running middle) :
    machine.run meaning code (first + second) = machine.run meaning code first := by
  induction first generalizing machine with
  | zero => exact absurd rfl (stopped machine)
  | succ first ih =>
    rw [Nat.add_right_comm, run, run]
    simp only [run] at stopped
    cases stepped : machine.step meaning code with
    | running next =>
      rw [stepped] at stopped
      exact ih stopped
    | halted store => rfl
    | jammed => rfl

/-- A machine that reaches another in some steps or more. -/
def Reaches (meaning : Interpretation V) (code : Code) (machine other : Machine V) : Prop :=
  ∃ count, machine.run meaning code count = .running other

theorem Reaches.refl (machine : Machine V) : Reaches meaning code machine machine := ⟨0, rfl⟩

variable {first second third : Machine V}

theorem Reaches.trans (before : Reaches meaning code first second)
    (after : Reaches meaning code second third) : Reaches meaning code first third := by
  obtain ⟨count, reaches⟩ := before
  obtain ⟨more, further⟩ := after
  exact ⟨count + more, (run_add reaches).trans further⟩

theorem Reaches.single {next : Machine V} (stepped : machine.step meaning code = .running next) :
    Reaches meaning code machine next :=
  ⟨1, by simp only [run, stepped]⟩

/-- A machine that stops within a number of steps. -/
def StopsIn (meaning : Interpretation V) (code : Code) (count : Nat) (machine : Machine V) : Prop :=
  ∀ other, machine.run meaning code count ≠ .running other

variable {count : Nat}

theorem StopsIn.reached (stops : machine.StopsIn meaning code count)
    (reaches : Reaches meaning code machine other) : other.StopsIn meaning code count := by
  obtain ⟨steps, run⟩ := reaches
  rcases Nat.le_total steps count with fewer | more
  · obtain ⟨rest, rfl⟩ := Nat.exists_eq_add_of_le fewer
    have stopped : other.StopsIn meaning code rest := by
      intro next further
      exact stops next ((run_add run).trans further)
    intro next further
    rw [Nat.add_comm, run_stopped stopped] at further
    exact stopped next further
  · obtain ⟨rest, rfl⟩ := Nat.exists_eq_add_of_le more
    rw [run_stopped stops] at run
    exact absurd run (stops other)

/-- A machine that reaches another in one step or more. -/
def Advances (meaning : Interpretation V) (code : Code) (machine other : Machine V) : Prop :=
  ∃ count, machine.run meaning code (count + 1) = .running other

theorem Advances.reaches (advances : Advances meaning code machine other) :
    Reaches meaning code machine other := by
  obtain ⟨count, run⟩ := advances
  exact ⟨count + 1, run⟩

theorem Reaches.step {fourth : Machine V} (before : Reaches meaning code first second)
    (stepped : second.step meaning code = .running third)
    (after : Reaches meaning code third fourth) : Advances meaning code first fourth := by
  obtain ⟨count, reaches⟩ := before
  obtain ⟨more, further⟩ := after
  refine ⟨count + more, ?_⟩
  rw [Nat.add_assoc, run_add reaches, run, stepped]
  exact further

theorem StopsIn.advanced (stops : machine.StopsIn meaning code count)
    (advances : Advances meaning code machine other) :
    ∃ fewer, fewer < count ∧ other.StopsIn meaning code fewer := by
  obtain ⟨steps, reaches⟩ := advances
  rcases Nat.lt_or_ge steps count with fewer | more
  · obtain ⟨rest, rfl⟩ := Nat.exists_eq_add_of_le (Nat.succ_le_of_lt fewer)
    refine ⟨rest, by omega, fun next further => stops next ?_⟩
    exact (run_add reaches).trans further
  · obtain ⟨rest, same⟩ := Nat.exists_eq_add_of_le (Nat.le_succ_of_le more)
    rw [show steps + 1 = count + rest from same, run_stopped stops] at reaches
    exact absurd reaches (stops other)

end Machine

end ThreeAddress

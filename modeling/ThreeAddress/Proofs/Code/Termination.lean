import ThreeAddress.Proofs.Code.Simulation

/-!
Where the machine stops, the statement ends.

The machine takes a step for every call and for every turn of a loop.
So one that stops has only so many of them before it, and the statement can be followed to its end.
-/

namespace ThreeAddress

open Source

variable {V : Type} {meaning : Interpretation V} {program : Program} {layout : Layout}
  {whole : Code} {owned : Handle → Prop}

/-- A statement ends wherever its code stands, if the machine stops within a number of steps there. -/
def Ends (meaning : Interpretation V) (program : Program) (layout : Layout) (whole : Code)
    (count : Nat) (statement : Statement) : Prop :=
  ∀ {owned : Handle → Prop} {mode : Option (Nat × Nat)} {low high place : Nat} {code : Code}
    {store other : Store V} {stack : List Nat},
    Coded program layout owned mode low statement code high →
    Settled program layout owned statement → whole.At place code →
    Agree layout.scratch store other →
    Machine.StopsIn meaning whole count ⟨place, other, stack⟩ →
    ∃ outcome after, statement.Runs program layout.slot meaning store outcome after

variable {place count : Nat} {store other : Store V} {stack : List Nat}

theorem Calls.ends (installed : Installed program layout whole) {call : Call} {code : Code}
    (calls : Calls program layout owned call code) {statement : Statement}
    (settled : Settled program layout owned statement) (member : call.function ∈ statement.callees)
    (placed : whole.At place code) (agree : Agree layout.scratch store other)
    (stops : Machine.StopsIn meaning whole count ⟨place, other, stack⟩)
    (earlier : ∀ fewer < count, ∀ body, Ends meaning program layout whole fewer body) :
    ∃ function outcome after, program.function? call.function = some function ∧
      function.body.Runs program layout.slot meaning (call.enter meaning function store) outcome
        after := by
  obtain ⟨function, inner, start, low, body, high, known, bodyPlaced, coded, innerSettled, entered,
    agrees, advances⟩ := calls.enters meaning stack installed settled member placed agree
  -- The call itself is a step, so the machine stops over the body in fewer of them.
  obtain ⟨fewer, less, stopsInside⟩ := stops.advanced advances
  obtain ⟨outcome, after, runs⟩ :=
    earlier fewer less function.body coded innerSettled bodyPlaced agrees stopsInside
  exact ⟨function, outcome, after, known, runs⟩

theorem Behind.ends {stop : Nat} {no : Statement} {others : Code}
    (behind : Behind program layout owned stop no others)
    (settled : Settled program layout owned no) (placed : whole.At place others)
    (agree : Agree layout.scratch store other)
    (stops : Machine.StopsIn meaning whole count ⟨place, other, stack⟩)
    (ends : Ends meaning program layout whole count no) :
    ∃ outcome after, no.Runs program layout.slot meaning store outcome after := by
  rcases behind with ⟨rfl, rfl⟩ | ⟨mode, low, high, coded⟩ | ⟨low, high, front, rfl, coded⟩
  · exact ⟨_, _, .skip⟩
  · exact ends coded settled placed agree stops
  · exact ends coded settled placed.left agree stops

theorem ends_of_stops (installed : Installed program layout whole) (count : Nat)
    (statement : Statement) : Ends meaning program layout whole count statement := by
  -- Calls and turns of a loop take a step each, and all other parts of a statement are smaller.
  induction count using Nat.strongRecOn generalizing statement with
  | ind count earlier =>
  induction statement
  all_goals intro owned mode low high place code store other stack coded settled placed agree stops
  case skip =>
    exact ⟨_, _, .skip⟩
  case assign target value =>
    exact ⟨_, _, .assign⟩
  case ret value =>
    exact ⟨_, _, .ret⟩
  case call source =>
    cases coded with
    | call calls _ =>
      obtain ⟨function, outcome, after, known, runs⟩ :=
        calls.ends installed settled (List.mem_singleton_self _) placed agree stops earlier
      -- A function that is left in any way but by a return leaves its call stuck.
      by_cases returned : outcome = .returned
      · subst returned
        exact ⟨_, _, .call known runs⟩
      · exact ⟨_, _, .callStuck known runs returned⟩
  case assignCall target source =>
    cases coded with
    | assignCall own calls _ =>
      obtain ⟨function, outcome, after, known, runs⟩ :=
        calls.ends installed settled (List.mem_singleton_self _) placed.left agree stops earlier
      by_cases returned : outcome = .returned
      · subst returned
        exact ⟨_, _, .assignCall known runs⟩
      · exact ⟨_, _, .assignCallStuck known runs returned⟩
  case seq first second ihFirst ihSecond =>
    cases coded with
    | seq codedFirst codedSecond =>
      have fewer := settled.part (fun callee member => List.mem_append_left _ member)
      obtain ⟨outcome, middle, runs⟩ := ihFirst codedFirst fewer placed.left agree stops
      by_cases normal : outcome = .normal
      · subst normal
        -- The machine reaches the second statement, and stops behind that as well.
        obtain ⟨reached, agrees, reaches⟩ :=
          followed_of_runs installed runs stack codedFirst fewer placed.left agree
        obtain ⟨last, after, runsSecond⟩ := ihSecond codedSecond
          (settled.part fun callee member => List.mem_append_right _ member) placed.right agrees
          (stops.reached reaches)
        exact ⟨last, after, .seq runs runsSecond⟩
      · exact ⟨outcome, middle, .seqLeft runs normal⟩
  case cond test yes no ihYes ihNo =>
    obtain ⟨mark, stop, first, last, lower, higher, testCode, value, body, others, shape, computes,
      codedYes, behind, -⟩ := coded.guarded
    obtain ⟨-, -, bodyPlaced, -, -, othersPlaced⟩ := (shape ▸ placed).guarded
    cases decided : meaning.holds (test.eval meaning store) with
    | true =>
      obtain ⟨final, agrees, reaches⟩ :=
        reaches_yes shape placed stack settled.lasting computes agree decided
      obtain ⟨outcome, after, runs⟩ := ihYes codedYes
        (settled.part fun callee member => List.mem_append_left _ member) bodyPlaced agrees
        (stops.reached reaches)
      exact ⟨outcome, after, .condTrue decided runs⟩
    | false =>
      obtain ⟨final, agrees, reaches⟩ :=
        reaches_no shape placed stack installed settled.lasting computes agree decided
      obtain ⟨outcome, after, runs⟩ := behind.ends
        (settled.part fun callee member => List.mem_append_right _ member) othersPlaced agrees
        (stops.reached reaches) ihNo
      exact ⟨outcome, after, .condFalse decided runs⟩
  case loop test body ih =>
    have again := coded
    cases coded with
    | loop computes later codedBody =>
      cases decided : meaning.holds (test.eval meaning store) with
      | false => exact ⟨_, _, .loopDone decided⟩
      | true =>
        obtain ⟨isHead, branch⟩ := placed.unlooped
        obtain ⟨entered, agreesEntered, tested⟩ :=
          reaches_yes rfl branch stack settled.lasting computes agree decided
        have reaches := (reaches_label isHead).trans tested
        obtain ⟨-, -, bodyPlaced, -⟩ := branch.guarded
        have inside : Settled program layout owned body := settled.part fun callee member => member
        obtain ⟨outcome, middle, runs⟩ :=
          ih codedBody inside bodyPlaced agreesEntered (stops.reached reaches)
        by_cases normal : outcome = .normal
        · subst normal
          obtain ⟨final, agrees, further⟩ :=
            followed_of_runs installed runs stack codedBody inside bodyPlaced agreesEntered
          -- The jump back to the test is a step, so the next turn stops in fewer of them.
          obtain ⟨fewer, less, stopsAgain⟩ := (stops.reached (reaches.trans further)).advanced
            (advances_again placed meaning installed final stack)
          obtain ⟨last, after, runsAgain⟩ :=
            earlier fewer less _ again settled placed agrees stopsAgain
          exact ⟨last, after, .loopNext decided runs runsAgain⟩
        · exact ⟨outcome, middle, .loopLeft decided runs normal⟩

end ThreeAddress

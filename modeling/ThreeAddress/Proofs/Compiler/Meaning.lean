import ThreeAddress.Proofs.Code.Termination
import ThreeAddress.Proofs.Compiler.Safety

/-!
Compiled code does what its program does.

The code of a program is laid out so that every function stands behind its entry label.
The machine then stops in a store that agrees with that of the program, and does not stop otherwise.
-/

namespace ThreeAddress

open Source List

variable {V : Type} {program : Program} {layout : Layout} {owned : Nat → Handle → Prop}
  {entry low high : Nat} {functions : List (Nat × Function)} {code : Code}

theorem FunctionsCoded.entries
    (coded : FunctionsCoded program layout owned entry low functions code high) :
    ∀ index held, functions[index]? = some held →
      layout.entry? held.2.handle = some (entry + index) := by
  induction coded with
  | nil => simp
  | cons start _ _ ih =>
    intro index held found
    cases index with
    | zero =>
      cases found
      exact start
    | succ index =>
      rw [ih index held found]
      congr 1
      omega

variable {whole : Code}

theorem FunctionsCoded.located {place : Nat}
    (coded : FunctionsCoded program layout owned entry low functions code high)
    (placed : whole.At place code) (above : entry + functions.length ≤ low) :
    ∀ {index : Nat} {held : Nat × Function}, functions[index]? = some held →
    ∃ target lower body higher, whole[target]? = some (.label (entry + index)) ∧
      whole.At (target + 1) body ∧ low ≤ lower ∧
      Coded program layout (owned held.1) none lower held.2.body body higher ∧
      (index + 1 = functions.length ∧ target + 1 + body.length = place + code.length ∨
        index + 1 < functions.length ∧
          whole[target + 1 + body.length]? = some (.label (entry + index + 1))) := by
  induction coded generalizing place with
  | nil => simp
  | @cons entry low middle high scope function rest body code start head tail ih =>
    simp only [length_cons] at above
    have front : whole.At place ((.label entry :: body) ++ code) := placed
    have more := (head.labels (by simp)).1
    intro index held found
    cases index with
    | zero =>
      cases found
      refine ⟨place, low, body, middle, front.head, front.left.tail, Nat.le_refl low, head, ?_⟩
      -- Behind the body stands the label of the next function, if there is one.
      have behind := front.right
      cases tail with
      | nil =>
        refine .inl ⟨rfl, ?_⟩
        simp only [append_nil, length_cons]
        omega
      | cons =>
        right
        simp only [length_cons] at behind ⊢
        rw [Nat.add_comm body.length, ← Nat.add_assoc] at behind
        exact ⟨by omega, behind.head⟩
    | succ index =>
      obtain ⟨target, lower, later, higher, labelled, bodyPlaced, atLeast, codedBody, behind⟩ :=
        ih front.right (by omega) (by simpa using found)
      have shift : entry + 1 + index = entry + (index + 1) := by omega
      rw [shift] at labelled behind
      refine ⟨target, lower, later, higher, labelled, bodyPlaced, by omega, codedBody, ?_⟩
      simp only [length_cons, length_append] at behind ⊢
      rcases behind with ⟨isLast, ends⟩ | ⟨notLast, next⟩
      · exact .inl (by omega)
      · exact .inr ⟨by omega, next⟩

namespace ProgramCoded

variable {scope : Nat} {scopes : List (Nat × Function)} {code : Code}

section

variable (coded : ProgramCoded program layout owned scope scopes code)
include coded

theorem labels : code.labels.Nodup := by
  cases coded with
  | plain ofMain => exact (ofMain.labels (by simp)).2.1
  | behind ofFunctions ofMain => exact (ofFunctions.labels_main ofMain).1

/-- A function of a program stands between its own label and that of another function or of the main block. -/
theorem located {index : Nat}
    {held : Nat × Function} (found : scopes[index]? = some held) :
    ∃ target lower body higher next, code[target]? = some (.label (index + 1)) ∧
      code.At (target + 1) body ∧ scopes.length < lower ∧
      Coded program layout (owned held.1) none lower held.2.body body higher ∧
      code[target + 1 + body.length]? = some (.label next) ∧ next ≤ scopes.length ∧
      next ≠ index + 1 := by
  cases coded with
  | plain => simp at found
  | @behind middle high _ functions main ofFunctions ofMain =>
    have all : Code.At (.goto 0 :: functions ++ .label 0 :: main) 0
        (.goto 0 :: functions ++ .label 0 :: main) := fun index _ => by rw [Nat.zero_add]
    obtain ⟨target, lower, body, higher, labelled, placed, above, codedBody, behind⟩ :=
      ofFunctions.located all.left.tail (Nat.le_refl _) found
    rw [Nat.add_comm 1 index] at labelled behind
    rcases behind with ⟨-, ends⟩ | ⟨notLast, next⟩
    · -- The last function stands right in front of the main block.
      have isMain := all.right.head
      rw [length_cons, Nat.add_comm functions.length, ← Nat.add_assoc, ← ends] at isMain
      exact ⟨target, lower, body, higher, 0, labelled, placed, by omega, codedBody, isMain,
        by omega, by omega⟩
    · exact ⟨target, lower, body, higher, index + 2, labelled, placed, by omega, codedBody, next,
        by omega, by omega⟩

/-- The functions of a program have their entry labels in order, behind that of the main block. -/
theorem entries :
    ∀ index held, scopes[index]? = some held →
      layout.entry? held.2.handle = some (index + 1) := by
  cases coded with
  | plain => simp
  | behind ofFunctions =>
    intro index held found
    rw [ofFunctions.entries index held found, Nat.add_comm]

/-- The machine comes to the main block, which ends with the code. -/
theorem main
    (meaning : Interpretation V) (store : Store V) :
    ∃ start low main high, code.At start main ∧ start + main.length = code.length ∧
      Coded program layout (owned scope) none low program.main main high ∧
      Machine.Reaches meaning code ⟨0, store, []⟩ ⟨start, store, []⟩ := by
  have once := coded.labels
  have all : code.At 0 code := fun index _ => by rw [Nat.zero_add]
  cases coded with
  | plain ofMain => exact ⟨0, _, code, _, all, Nat.zero_add _, ofMain, .refl _⟩
  -- The jump over the functions leads to the label in front of the main block.
  | @behind middle high _ functions main ofFunctions ofMain =>
    have isMain := all.right.head
    refine ⟨_, _, main, _, all.right.tail, ?_, ofMain, ?_⟩
    · simp only [length_append, length_cons]
      omega
    · have jump : Machine.Advances meaning _ ⟨0, store, []⟩ ⟨_, store, []⟩ :=
        advances_goto once all.left.head isMain
      exact jump.reaches.trans (reaches_label isMain)

end

end ProgramCoded

variable {handle : Handle} {scope : Nat}

theorem SymbolTable.Owned.scope_eq {table : SymbolTable} {other : Nat}
    (own : table.Owned scope handle) (owned : table.Owned other handle) : scope = other := by
  obtain ⟨entry, found, -, inScope, -⟩ := own
  obtain ⟨same, isSame, -, inOther, -⟩ := owned
  cases found.symm.trans isSame
  exact Option.some.inj (inScope.symm.trans inOther)

/-- A variable of a program never becomes a temporary. -/
theorem Supply.Grown.lasting {before after : Supply} (grown : before.Grown after)
    (own : before.symbols.Owned scope handle) : ¬ after.symbols.Scratch handle := by
  rintro ⟨entry, found, temporary, -⟩
  obtain ⟨known, isKnown, -, -, declared⟩ := own
  cases found.symm.trans (grown.lookup? isKnown)
  rw [declared] at temporary
  cases temporary

theorem SymbolTable.slot_not_scratch (table : SymbolTable) :
    ¬ table.Scratch (table.returnSlot.getD Handle.absent) := by
  rintro ⟨entry, found, -, other⟩
  cases slot : table.returnSlot with
  | none =>
    rw [slot] at found
    cases found
  | some handle => exact other (by rw [slot]; rfl)

theorem held_of_function? {scopes : List (Nat × Function)}
    (same : scopes.map Prod.snd = program.functions) {function : Function}
    (known : program.function? handle = some function) :
    ∃ scope, (scope, function) ∈ scopes ∧ function.handle = handle := by
  have member : function ∈ scopes.map Prod.snd := same ▸ mem_of_find?_eq_some known
  obtain ⟨⟨scope, _⟩, inside, rfl⟩ := mem_map.mp member
  exact ⟨scope, inside, by simpa using find?_some known⟩

section Installation

variable {base : Environment} {supply : Supply} {context : Context} {scopes : List (Nat × Function)}
  {scope : Nat} {code : Code} (grown : (Generate.start base).Grown supply)
  (same : scopes.map Prod.snd = program.functions) (functionsIn : FunctionsIn base scopes)
include grown same functionsIn

theorem settled_of_scope {statement : Statement}
    (apart : ∀ held ∈ scopes, held.1 = scope → held.2.handle ∉ statement.callees) :
    Settled program (context.layout supply) (base.symbols.Owned scope) statement where
  lasting handle own := grown.lasting own
  apart callee member function known param isParam own := by
    obtain ⟨other, inside, rfl⟩ := held_of_function? same known
    have inOther := (functionsIn.each _ inside).owned param isParam
    exact apart _ inside (SymbolTable.Owned.scope_eq inOther own) member

theorem ProgramCoded.installed
    (coded : ProgramCoded program (context.layout supply) base.symbols.Owned scope scopes code)
    (free : program.NoSelfCalls) : Installed program (context.layout supply) code where
  labels := coded.labels
  slot := supply.symbols.slot_not_scratch
  params {handle function} known := by
    obtain ⟨scope, inside, -⟩ := held_of_function? same known
    have scopedIn := functionsIn.each _ inside
    exact ⟨scopedIn.distinct, fun param member => grown.lasting (scopedIn.owned param member)⟩
  functions {handle function entry} known start := by
    obtain ⟨scope, inside, rfl⟩ := held_of_function? same known
    obtain ⟨index, isAt⟩ := mem_iff_getElem?.mp inside
    cases start.symm.trans (coded.entries index _ isAt)
    obtain ⟨place, low, body, high, -, labelled, placed, -, codedBody, -⟩ := coded.located isAt
    refine ⟨_, place, low, body, high, labelled, placed, codedBody, ?_⟩
    refine settled_of_scope grown same functionsIn fun held member sameScope => ?_
    -- No other function has this scope, and this one does not call itself.
    cases inj_on_of_nodup_map functionsIn.scopes member inside sameScope
    exact free function (same ▸ mem_map_of_mem inside)

theorem settled_main (apart : scope ∉ scopes.map Prod.fst) :
    Settled program (context.layout supply) (base.symbols.Owned scope) program.main := by
  refine settled_of_scope grown same functionsIn fun held member sameScope => ?_
  exact absurd (sameScope ▸ mem_map_of_mem member) apart

end Installation

namespace Machine

variable {meaning : Interpretation V} {code : Code} {machine : Machine V} {store : Store V}

theorem Reaches.halts {other : Machine V} (reaches : Reaches meaning code machine other)
    (stepped : other.step meaning code = .halted store) :
    ∃ count, machine.run meaning code count = .halted store := by
  obtain ⟨count, run⟩ := reaches
  exact ⟨count + 1, (run_add run).trans (by simp only [Machine.run, stepped])⟩

theorem StopsIn.run_eq {count other : Nat} (stops : machine.StopsIn meaning code count)
    (halts : machine.run meaning code other = .halted store) :
    machine.run meaning code count = .halted store := by
  have stopsToo : machine.StopsIn meaning code other := fun next further => by
    rw [halts] at further
    cases further
  -- Both counts are within their sum, and a machine that has stopped does not go on.
  have later : machine.run meaning code (count + other) = machine.run meaning code count :=
    run_stopped stops
  rw [← later, Nat.add_comm, run_stopped stopsToo, halts]

end Machine

theorem Arrives.halts {meaning : Interpretation V} {machine : Machine V} {stop : Nat}
    {after : Store V} {outcome : Source.Outcome}
    (arrives : Arrives meaning layout whole machine stop after outcome) (last : stop = whole.length)
    (outermost : machine.stack = []) (free : outcome ≠ .stuck) :
    ∃ count final, machine.run meaning whole count = .halted final ∧
      Agree layout.scratch after final := by
  cases outcome with
  | normal =>
    obtain ⟨final, agree, reaches⟩ := arrives
    have stepped : Machine.step meaning whole ⟨stop, final, machine.stack⟩ = .halted final := by
      simp [Machine.step, last]
    obtain ⟨count, halts⟩ := reaches.halts stepped
    exact ⟨count, final, halts, agree⟩
  | returned =>
    obtain ⟨final, place, agree, returns, reaches⟩ := arrives
    have stepped : Machine.step meaning whole ⟨place, final, machine.stack⟩ = .halted final := by
      simp [Machine.step, returns, outermost]
    obtain ⟨count, halts⟩ := reaches.halts stepped
    exact ⟨count, final, halts, agree⟩
  | stuck => exact absurd rfl free

/-- The variable for results of a compiled program. A program that makes none never refers to it. -/
def Compilation.slot (compilation : Compilation) : Handle :=
  compilation.environment.symbols.returnSlot.getD Handle.absent

/-- The temporaries of a compiled program. -/
def Compilation.Scratch (compilation : Compilation) : Handle → Prop :=
  compilation.environment.symbols.Scratch

variable {compiler : Compiler} {text : Text} {compilation : Compilation}

theorem Compiler.compile_layout (standard : Compiler.standard = .ok compiler)
    (compiled : compiler.compile text = .ok compilation) :
    ∃ program base supply context scopes scope, Program.read? compilation.tree = some program ∧
      (Generate.start base).Grown supply ∧ scopes.map Prod.snd = program.functions ∧
      FunctionsIn base scopes ∧ scope ∉ scopes.map Prod.fst ∧
      compilation.environment.symbols = supply.symbols ∧
      ProgramCoded program (Context.layout context supply) base.symbols.Owned scope scopes
        compilation.code := by
  obtain ⟨program, base, read, inside, generated, -⟩ := compile_generated standard compiled
  rcases generate_cases read inside with ⟨error, failed⟩ |
    ⟨code, supply, context, scopes, scope, again, grown, same, functionsIn, apart, coded⟩
  · rw [generated] at failed
    cases failed
  · obtain ⟨isCode, tables⟩ := Prod.mk.inj (generated.symm.trans again)
    cases isCode
    exact ⟨program, base, supply, context, scopes, scope, read, grown, same, functionsIn, apart,
      tables, coded⟩

/--
Compiling preserves what a program does.

A program in which no function calls itself ends in some store if and only if its code does, up to temporaries.
Only a program that runs into the end of a function without a return is left out.
-/
theorem Compiler.compile_preserves_meaning (standard : Compiler.standard = .ok compiler)
    (compiled : compiler.compile text = .ok compilation) :
    ∃ program, Program.read? compilation.tree = some program ∧
      (program.NoSelfCalls → ∀ {V : Type} (meaning : Interpretation V) (store : Store V),
        (∀ after, program.Terminates compilation.slot meaning store after →
          ∃ count final, Machine.run meaning compilation.code count ⟨0, store, []⟩ = .halted final ∧
            Agree compilation.Scratch after final) ∧
        ∀ count, Machine.StopsIn meaning compilation.code count ⟨0, store, []⟩ →
          program.GetsStuck compilation.slot meaning store ∨
            ∃ after final, program.Terminates compilation.slot meaning store after ∧
              Machine.run meaning compilation.code count ⟨0, store, []⟩ = .halted final ∧
              Agree compilation.Scratch after final) := by
  obtain ⟨program, base, supply, context, scopes, scope, read, grown, same, functionsIn, apart,
    tables, coded⟩ := compile_layout standard compiled
  refine ⟨program, read, fun free V meaning store => ?_⟩
  -- The final table holds the variables of the text and the temporaries of its code.
  simp only [Compilation.slot, Compilation.Scratch, tables]
  have installed := coded.installed grown same functionsIn free
  have settled : Settled program (context.layout supply) (base.symbols.Owned scope) program.main :=
    settled_main grown same functionsIn apart
  obtain ⟨start, low, main, high, placed, ends, codedMain, reaches⟩ := coded.main meaning store
  have agree : Agree supply.symbols.Scratch store store := fun _ _ => rfl
  -- Where the main block ends without being stuck, the machine halts.
  have halts : ∀ {outcome after}, outcome ≠ .stuck →
      program.main.Runs program (context.layout supply).slot meaning store outcome after →
      ∃ count final, Machine.run meaning compilation.code count ⟨0, store, []⟩ = .halted final ∧
        Agree supply.symbols.Scratch after final := by
    intro outcome after notStuck runs
    have arrives := followed_of_runs installed runs [] codedMain settled placed agree
    exact (Arrives.after reaches rfl arrives).halts ends rfl notStuck
  constructor
  · rintro after ⟨outcome, notStuck, runs⟩
    exact halts notStuck runs
  · intro count stops
    -- A machine that stops does so over code of statements that end, so the source ends too.
    obtain ⟨outcome, after, runs⟩ := ends_of_stops installed count program.main codedMain settled
      placed agree (stops.reached reaches)
    by_cases stuck : outcome = .stuck
    · subst stuck
      exact .inl ⟨after, runs⟩
    · obtain ⟨other, final, halted, agrees⟩ := halts stuck runs
      exact .inr ⟨after, final, ⟨outcome, stuck, runs⟩, stops.run_eq halted, agrees⟩

/-- A program that squares a number in a function, and keeps it below a bound. -/
def squareText : Text := ("func int #square(int #n) \x7b return #n * #n; \x7d " : Text) ++
    "start var int #x = 7; #x = call #square(#x); if (#x > 40) \x7b #x = 40; \x7d fi end"

/-- The same program without its spelling. -/
def squareProgram : Program where
  functions := [⟨0, [1], .seq (.ret (.binary .mul (.name 1) (.name 1))) .skip⟩]
  main := .seq (.assign 2 (.literal 0)) (.seq (.assignCall 2 ⟨0, [.name 2]⟩)
    (.seq (.cond (.binary .greater (.name 2) (.literal 1))
      (.seq (.assign 2 (.literal 1)) .skip) .skip) .skip))

/-- Integers, of which all but zero are true. The literals are those of the program. -/
def squareMeaning : Interpretation Int where
  apply operation left right :=
    match operation with
    | .mul => left * right
    | .greater => if left > right then 1 else 0
    | _ => 0
  literal handle := if handle = 0 then 7 else 40
  holds value := value != 0

/-- The program ends with the bound, since the square of its number is above it. -/
theorem squareProgram_terminates : ∃ after, after 2 = 40 ∧
    squareProgram.Terminates 4 squareMeaning (fun _ => 0) after := by
  refine ⟨_, ?_, .normal, by decide, .seq .assign
    (.seq (.assignCall rfl (.seqLeft .ret (by decide)))
      (.seq (.condTrue ?_ (.seq .assign .skip)) .skip))⟩
  · decide
  · decide

theorem squareText_compiled : (Compiler.standard.toOption.bind fun compiler =>
    (compiler.compile squareText).toOption.bind fun compilation =>
      some (Program.read? compilation.tree, compilation.slot,
        compilation.environment.symbols.lookup? 2)) =
    some (some squareProgram, 4,
      some (.var { name := "#x", type := .int, scope := some 2 })) := by
  decide +kernel

/-- The code of the program halts with the bound as well. -/
theorem Compiler.compile_preserves_square : ∃ compiler compilation,
    Compiler.standard = .ok compiler ∧ compiler.compile squareText = .ok compilation ∧
      Program.read? compilation.tree = some squareProgram ∧ squareProgram.NoSelfCalls ∧
      ∃ count final, Machine.run squareMeaning compilation.code count ⟨0, fun _ => 0, []⟩ =
        .halted final ∧ final 2 = 40 := by
  obtain ⟨compiler, standard, computed⟩ := ok_of_toOption_bind squareText_compiled
  obtain ⟨compilation, compiled, answers⟩ := ok_of_toOption_bind computed
  simp only [Option.some.injEq, Prod.mk.injEq] at answers
  obtain ⟨isProgram, slot, isVariable⟩ := answers
  have free : squareProgram.NoSelfCalls := by
    unfold Program.NoSelfCalls
    decide
  obtain ⟨program, read, preserves⟩ := compile_preserves_meaning standard compiled
  cases isProgram.symm.trans read
  obtain ⟨after, found, terminates⟩ := squareProgram_terminates
  obtain ⟨count, final, halts, agree⟩ :=
    (preserves free squareMeaning (fun _ => 0)).1 after (slot ▸ terminates)
  refine ⟨compiler, compilation, standard, compiled, read, free, count, final, halts, ?_⟩
  -- The variable of the main block is no temporary.
  rw [← agree 2 ?_, found]
  rintro ⟨entry, isEntry, temporary, -⟩
  cases isVariable.symm.trans isEntry
  cases temporary

end ThreeAddress

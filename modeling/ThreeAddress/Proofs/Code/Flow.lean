import ThreeAddress.Proofs.Code.Simulation
import Mathlib.Logic.Relation

/-!
Where control can go in code, whatever the values are.

The code of a statement is left at its end or by a return.
Its end can be reached exactly if the statement can come to an end without one.
-/

namespace ThreeAddress

open Source List

/-- Whether control may go on behind an instruction. A call comes back there. -/
def Instruction.passes : Instruction → Bool
  | .goto _ => false
  | .ret => false
  | _ => true

/-- The label that an instruction may go on at. -/
def Instruction.jump? : Instruction → Option Nat
  | .goto place => some place
  | .ifFalse _ place => some place
  | _ => none

/-- Control goes from a place in code to another. From a return it goes nowhere. -/
inductive Code.Flows (code : Code) : Nat → Nat → Prop where
  | next {place : Nat} {instruction : Instruction} (here : code[place]? = some instruction)
    (passes : instruction.passes = true) : Flows code place (place + 1)
  | jump {place target label : Nat} {instruction : Instruction}
    (here : code[place]? = some instruction) (jumps : instruction.jump? = some label)
    (there : code[target]? = some (.label label)) : Flows code place target

/-- A path through code, on which no return is passed. -/
def Code.Leads (code : Code) : Nat → Nat → Prop := Relation.ReflTransGen code.Flows

/-- All paths from a place stay inside a stretch of code. -/
def Code.Confines (code : Code) (start stop place : Nat) : Prop :=
  ∀ target, code.Leads place target → start ≤ target ∧ target < stop

/-- Whether a statement can come to its end without a return, if any test may hold and fail. -/
def Source.Statement.finishes : Statement → Bool
  | .skip => true
  | .assign .. => true
  | .assignCall .. => true
  | .call _ => true
  | .ret _ => false
  | .seq first second => first.finishes && second.finishes
  | .cond _ yes no => yes.finishes || no.finishes
  | .loop .. => true

/-- Code without jumps and returns. -/
def Code.Straight (code : Code) : Prop :=
  ∀ instruction ∈ code, instruction.passes = true ∧ instruction.jump? = none

variable {whole : Code} {place : Nat} {label : Nat}

theorem Code.label_unique {first second : Nat} (once : whole.labels.Nodup)
    (here : whole[first]? = some (.label label)) (there : whole[second]? = some (.label label)) :
    first = second :=
  Option.some.inj ((position?_eq once here).symm.trans (position?_eq once there))

theorem Code.At.label_inside {part : Code} {target : Nat} (once : whole.labels.Nodup)
    (placed : whole.At place part) (member : label ∈ part.labels)
    (there : whole[target]? = some (.label label)) :
    place ≤ target ∧ target < place + part.length := by
  obtain ⟨instruction, inside, isLabel⟩ := mem_filterMap.mp member
  -- Only a label instruction has a label.
  obtain rfl : instruction = .label label := by
    cases instruction <;> simp_all
  obtain ⟨index, found⟩ := mem_iff_getElem?.mp inside
  have bound : index < part.length := (List.getElem?_eq_some_iff.mp found).1
  have same := label_unique once ((placed index bound).trans found) there
  omega

namespace Code.Straight

variable {code : Code}

theorem of_computes (computes : code.all Instruction.computes = true) : Straight code := by
  intro instruction member
  have computing := all_eq_true.mp computes instruction member
  cases instruction with
  | binary | move => exact ⟨rfl, rfl⟩
  | _ => cases computing

theorem single {instruction : Instruction} (passes : instruction.passes = true)
    (stays : instruction.jump? = none) : Straight [instruction] :=
  forall_mem_singleton.mpr ⟨passes, stays⟩

theorem append {first second : Code} (one : Straight first) (two : Straight second) :
    Straight (first ++ second) := by
  intro instruction member
  rcases mem_append.mp member with early | late
  · exact one instruction early
  · exact two instruction late

/-- From inside straight code control goes to the next instruction only. -/
theorem flows (straight : Straight code) (placed : whole.At place code) {origin target : Nat}
    (lower : place ≤ origin) (upper : origin < place + code.length) (flows : whole.Flows origin target) :
    target = origin + 1 := by
  have found := placed (origin - place) (by omega)
  rw [Nat.add_sub_cancel' lower] at found
  cases flows with
  | next => rfl
  | jump here jumps =>
    rw [here, eq_comm] at found
    have none := (straight _ (mem_of_getElem? found)).2
    rw [none] at jumps
    cases jumps

theorem leads (straight : Straight code) (placed : whole.At place code) :
    whole.Leads place (place + code.length) := by
  induction code generalizing place with
  | nil => exact Relation.ReflTransGen.refl
  | cons instruction rest ih =>
    have first : whole.Flows place (place + 1) :=
      .next placed.head (straight instruction (by simp)).1
    have others := ih (forall_mem_cons.mp straight).2 placed.tail
    rw [length_cons, Nat.add_comm rest.length, ← Nat.add_assoc]
    exact Relation.ReflTransGen.head first others

/-- A return behind straight code ends all paths from its start. -/
theorem confines (straight : Straight code) (placed : whole.At place (code ++ [.ret])) :
    whole.Confines place (place + code.length + 1) place := by
  intro target leads
  induction leads with
  | refl => omega
  | @tail origin target _ flows ih =>
    by_cases inside : origin < place + code.length
    · have next := straight.flows placed.left ih.1 inside flows
      omega
    · -- From the return itself control goes nowhere.
      obtain rfl : origin = place + code.length := by omega
      cases flows with
      | next here passes =>
        cases here.symm.trans placed.right.head
        cases passes
      | jump here jumps =>
        cases here.symm.trans placed.right.head
        cases jumps

end Code.Straight

theorem Computes.straight {scratch owned : Handle → Prop} {low high : Nat}
    {expression : Expression} {code : Code} {value : Value}
    (computes : Computes scratch owned low expression code value high) : code.Straight :=
  .of_computes computes.all_computes

/-- Code that jumps to its own labels only. -/
def Code.Closed (code : Code) : Prop :=
  ∀ instruction ∈ code, ∀ label, instruction.jump? = some label → label ∈ code.labels

namespace Code.Closed

theorem straight {code : Code} (straight : code.Straight) : code.Closed := by
  intro instruction member label jumps
  rw [(straight instruction member).2] at jumps
  cases jumps

theorem append {first second : Code} (one : first.Closed) (two : second.Closed) :
    Closed (first ++ second) := by
  intro instruction member label jumps
  rw [labels_append, mem_append]
  rcases mem_append.mp member with early | late
  · exact .inl (one instruction early label jumps)
  · exact .inr (two instruction late label jumps)

theorem guarded {test body others : Code} {value : Value} {mark stop : Nat} (ofTest : test.Straight)
    (ofBody : body.Closed) (ofOthers : others.Closed)
    (ends : stop ∈ Code.labels
      (test ++ [.ifFalse value mark] ++ body ++ [.goto stop, .label mark] ++ others)) :
    Closed (test ++ [.ifFalse value mark] ++ body ++ [.goto stop, .label mark] ++ others) := by
  intro instruction member label jumps
  simp only [mem_append, mem_cons, not_mem_nil, or_false, or_assoc] at member
  rcases member with inside | rfl | inside | rfl | rfl | inside
  · rw [(ofTest instruction inside).2] at jumps
    cases jumps
  · cases jumps
    simp
  · simp [ofBody instruction inside label jumps]
  · cases jumps
    exact ends
  · cases jumps
  · simp [ofOthers instruction inside label jumps]

end Code.Closed

section Statements

variable {program : Program} {layout : Layout} {owned : Handle → Prop}

theorem Calls.straight {call : Call} {code : Code} (calls : Calls program layout owned call code) :
    code.Straight := by
  obtain ⟨front, entry, rfl, computes⟩ := calls.exists_front
  exact (Code.Straight.of_computes computes).append (.single rfl rfl)

/-- The code of a statement jumps to its own labels only. -/
theorem Coded.closed {mode : Option (Nat × Nat)} {low high : Nat} {statement : Statement}
    {code : Code} (coded : Coded program layout owned mode low statement code high) :
    code.Closed := by
  induction coded with
  | skip => simp [Code.Closed]
  | assign _ computes => exact .straight (computes.straight.append (.single rfl rfl))
  | assignCall _ calls => exact .straight (calls.straight.append (.single rfl rfl))
  | call calls => exact .straight calls.straight
  | ret computes =>
    exact (Code.Closed.straight computes.straight).append (by simp [Code.Closed, Instruction.jump?])
  | seq _ _ ihFirst ihSecond => exact ihFirst.append ihSecond
  | @loop low exit _ _ _ _ _ test _ _ computes _ _ ih =>
    -- The way back is the jump to the end of a branch whose test begins with the label.
    have front : Code.Straight ([.label low] ++ test) :=
      Code.Straight.append (.single rfl rfl) computes.straight
    have ofNothing : Code.Closed [] := by simp [Code.Closed]
    simpa using Code.Closed.guarded front ih ofNothing (by simp)
  | cond _ _ ih => exact ih
  | last computes _ _ ih =>
    have ofNothing : Code.Closed [] := by simp [Code.Closed]
    simpa using Code.Closed.guarded computes.straight ih ofNothing (by simp)
  | branch computes _ _ ofNo ihYes ihNo =>
    -- The end of all branches is the last label of those behind this one.
    have isEnd := mem_of_getLast? (ofNo.ends rfl)
    exact Code.Closed.guarded computes.straight ihYes ihNo
      (mem_filterMap.mpr ⟨_, mem_append_right _ isEnd, rfl⟩)
  | otherwise computes _ _ _ ihYes ihNo =>
    refine Code.Closed.guarded computes.straight ihYes
      (ihNo.append (by simp [Code.Closed, Instruction.jump?])) (by simp)

variable {mode : Option (Nat × Nat)} {low high : Nat} {statement : Statement} {code : Code}
  {target : Nat}

/-- From inside the code of a statement control stays there, or goes to its end. -/
theorem Coded.flows (once : whole.labels.Nodup)
    (coded : Coded program layout owned mode low statement code high) (placed : whole.At place code)
    {origin : Nat} (lower : place ≤ origin) (upper : origin < place + code.length)
    (flows : whole.Flows origin target) : place ≤ target ∧ target ≤ place + code.length := by
  cases flows with
  | next => omega
  | jump here jumps there =>
    have found := placed (origin - place) (by omega)
    rw [Nat.add_sub_cancel' lower, here, eq_comm] at found
    have member := coded.closed _ (mem_of_getElem? found) _ jumps
    have inside := placed.label_inside once member there
    omega

theorem Coded.leads_out (once : whole.labels.Nodup)
    (coded : Coded program layout owned mode low statement code high) (placed : whole.At place code)
    (leads : whole.Leads place target) :
    (place ≤ target ∧ target < place + code.length) ∨ whole.Leads (place + code.length) target := by
  induction leads with
  | refl =>
    by_cases empty : code.length = 0
    · rw [empty]
      exact .inr .refl
    · exact .inl (by omega)
  | @tail origin target _ flows ih =>
    rcases ih with ⟨lower, upper⟩ | further
    · have inside := coded.flows once placed lower upper flows
      by_cases atEnd : target = place + code.length
      · rw [atEnd]
        exact .inr .refl
      · exact .inl ⟨inside.1, by omega⟩
    · exact .inr (further.tail flows)

section Conditionals

variable {mark stop first last : Nat} {expression : Expression} {test body others : Code}
  {value : Value}
  (shape : code = test ++ [.ifFalse value mark] ++ body ++ [.goto stop, .label mark] ++ others)
  (computes : Computes layout.scratch owned first expression test value last)
  (placed : whole.At place code)
include shape computes placed

/-- A conditional leads to the code that its test guards, and to the code behind that. -/
theorem leads_guarded : whole.Leads place (place + test.length + 1) ∧
    whole.Leads place (place + test.length + 1 + body.length + 2) := by
  rw [shape] at placed
  obtain ⟨testPlaced, guard, -, -, isMark, -⟩ := placed.guarded
  have tested := computes.straight.leads testPlaced
  exact ⟨tested.tail (.next guard rfl),
    (tested.tail (.jump guard rfl isMark)).tail (.next isMark rfl)⟩

omit computes in
theorem leads_end (ends : code.getLast? = some (.label stop)) :
    whole.Leads (place + test.length + 1 + body.length) (place + code.length) := by
  obtain ⟨target, behind, isEnd⟩ := placed.last ends
  rw [shape] at placed
  obtain ⟨-, -, -, jump, -, -⟩ := placed.guarded
  rw [← behind]
  exact (Relation.ReflTransGen.single (.jump jump rfl isEnd)).tail (.next isEnd rfl)

/-- Every path from a conditional is still at its test, or passes one of its two sides. -/
theorem guarded_cases (once : whole.labels.Nodup) {target : Nat} (leads : whole.Leads place target) :
    (place ≤ target ∧ target ≤ place + test.length) ∨ whole.Leads (place + test.length + 1) target ∨
      target = place + test.length + 1 + body.length + 1 ∨
      whole.Leads (place + test.length + 1 + body.length + 2) target := by
  rw [shape] at placed
  obtain ⟨testPlaced, guard, -, -, isMark, -⟩ := placed.guarded
  induction leads with
  | refl => exact .inl (by omega)
  | @tail origin target _ flows ih =>
    rcases ih with ⟨lower, upper⟩ | inBody | rfl | inOthers
    · by_cases inTest : origin < place + test.length
      · have next := computes.straight.flows testPlaced lower inTest flows
        exact .inl (by omega)
      · -- The test itself goes on with what it guards, or at the label behind that.
        obtain rfl : origin = place + test.length := by omega
        cases flows with
        | next => exact .inr (.inl .refl)
        | jump here jumps there =>
          cases here.symm.trans guard
          cases jumps
          exact .inr (.inr (.inl (Code.label_unique once there isMark)))
    · exact .inr (.inl (inBody.tail flows))
    · cases flows with
      | next => exact .inr (.inr (.inr .refl))
      | jump here jumps =>
        cases here.symm.trans isMark
        cases jumps
    · exact .inr (.inr (.inr (inOthers.tail flows)))

end Conditionals

/-- The end of the code of a statement that can come to its end can be reached. -/
theorem Coded.leads_of_finishes (finishes : statement.finishes = true) :
    ∀ {mode low code high place}, Coded program layout owned mode low statement code high →
      whole.At place code → whole.Leads place (place + code.length) := by
  induction statement
  all_goals intro mode low code high place coded placed
  case skip =>
    cases coded
    exact .refl
  case assign target expression =>
    cases coded with
    | assign _ computes => exact (computes.straight.append (.single rfl rfl)).leads placed
  case assignCall target call =>
    cases coded with
    | assignCall _ calls => exact (calls.straight.append (.single rfl rfl)).leads placed
  case call call =>
    cases coded with
    | call calls => exact calls.straight.leads placed
  case ret expression => cases finishes
  case seq first second ihFirst ihSecond =>
    simp only [Statement.finishes, Bool.and_eq_true] at finishes
    cases coded with
    | seq ofFirst ofSecond =>
      rw [length_append, ← Nat.add_assoc]
      exact (ihFirst finishes.1 ofFirst placed.left).trans
        (ihSecond finishes.2 ofSecond placed.right)
  case cond test yes no ihYes ihNo =>
    simp only [Statement.finishes, Bool.or_eq_true] at finishes
    obtain ⟨mark, stop, first, last, lower, higher, front, value, body, others, shape, computes,
      ofYes, behind, ends⟩ := coded.guarded
    obtain ⟨toBody, toOthers⟩ := leads_guarded shape computes placed
    obtain ⟨-, -, bodyPlaced, -, -, othersPlaced⟩ := (shape ▸ placed).guarded
    rcases finishes with ofBody | ofOthers
    · exact (toBody.trans (ihYes ofBody ofYes bodyPlaced)).trans
        (leads_end shape placed ends)
    · refine toOthers.trans ?_
      rw [length_guarded shape]
      rcases behind with ⟨rfl, rfl⟩ | ⟨_, _, _, ofNo⟩ | ⟨_, _, front, rfl, ofNo⟩
      · exact .refl
      · exact ihNo ofOthers ofNo othersPlaced
      · rw [length_append, ← Nat.add_assoc]
        exact (ihNo ofOthers ofNo othersPlaced.left).tail (.next othersPlaced.right.head rfl)
  case loop test body ih =>
    cases coded with
    | loop computes _ ofBody =>
      obtain ⟨isHead, branch⟩ := placed.unlooped
      rw [length_looped]
      exact Relation.ReflTransGen.head (.next isHead rfl) (leads_guarded rfl computes branch).2

/-- All paths from a statement that cannot come to its end stay inside its code. -/
theorem Coded.confines (once : whole.labels.Nodup) (returns : statement.finishes = false) :
    ∀ {mode low code high place}, Coded program layout owned mode low statement code high →
      whole.At place code → whole.Confines place (place + code.length) place := by
  induction statement with
  | skip | assign | assignCall | call | loop => cases returns
  | ret expression =>
    intro mode low code high place coded placed target leads
    cases coded with
    | @ret _ _ _ _ _ code value computes _ =>
      have straight : Code.Straight (code ++ [.move layout.slot value]) :=
        computes.straight.append (.single rfl rfl)
      have inside := straight.confines (by simpa using placed) target leads
      simp only [length_append, length_cons, length_nil] at inside ⊢
      omega
  | seq first second ihFirst ihSecond =>
    intro mode low code high place coded placed target leads
    cases coded with
    | seq ofFirst ofSecond =>
      rw [length_append]
      by_cases early : first.finishes = true
      · -- The first part may be left at its end, where the second one begins.
        have late : second.finishes = false := by simpa [Statement.finishes, early] using returns
        rcases ofFirst.leads_out once placed.left leads with inside | further
        · omega
        · have inside := ihSecond late ofSecond placed.right target further
          omega
      · have inside := ihFirst (by simpa using early) ofFirst placed.left target leads
        omega
  | cond test yes no ihYes ihNo =>
    intro mode low code high place coded placed target leads
    simp only [Statement.finishes, Bool.or_eq_false_iff] at returns
    obtain ⟨mark, stop, first, last, lower, higher, front, value, body, others, shape, computes,
      ofYes, behind, -⟩ := coded.guarded
    obtain ⟨-, -, bodyPlaced, -, -, othersPlaced⟩ := (shape ▸ placed).guarded
    rw [length_guarded shape]
    rcases guarded_cases shape computes placed once leads with atTest | inBody | atMark | inOthers
    · omega
    · have inside := ihYes returns.1 ofYes bodyPlaced target inBody
      omega
    · omega
    · rcases behind with ⟨rfl, rfl⟩ | ⟨_, _, _, ofNo⟩ | ⟨_, _, front, rfl, ofNo⟩
      · cases returns.2
      · have inside := ihNo returns.2 ofNo othersPlaced target inOthers
        omega
      · have inside := ihNo returns.2 ofNo othersPlaced.left target inOthers
        rw [length_append]
        omega

end Statements

end ThreeAddress

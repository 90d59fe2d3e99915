import ThreeAddress.Proofs.Compiler.Binding
import ThreeAddress.Proofs.Compiler.Instructions

/-!
The labels of compiled code are closed, unique and local.

A program is compiled to one block for each function and one for the main block.
Its labels are numbered without gaps, each stands at one place, and jumps stay in their block.
-/

namespace ThreeAddress

open Source List

/-- The label that an instruction places or refers to. -/
def Instruction.place? : Instruction → Option Nat
  | .goto place => some place
  | .ifFalse _ place => some place
  | .label place => some place
  | .call place => some place
  | _ => none

namespace Code

/-- Blocks one after the other, each behind its entry label. Entry labels are numbered on from the given one. -/
def blocks (entry : Nat) : List Code → Code
  | [] => []
  | body :: rest => .label entry :: body ++ blocks (entry + 1) rest

/-- The blocks of functions and the main block. Where there are functions, the code starts with a jump over them. -/
def assemble (bodies : List Code) (main : Code) : Code :=
  if bodies.isEmpty then main else .goto 0 :: blocks 1 bodies ++ .label 0 :: main

/-- Exactly the labels below a count occur, and each of them is placed once. -/
structure LabelledBelow (code : Code) (count : Nat) : Prop where
  occurring : ∀ label, (∃ instruction ∈ code, instruction.place? = some label) ↔ label < count
  once : ∀ label < count, code.count (.label label) = 1

end Code

/-- Code of a statement, whatever variables belong to it and whatever labels it takes. -/
def Layout.Codes (layout : Layout) (program : Program) (statement : Statement) (code : Code) : Prop :=
  ∃ owned low high, Coded program layout owned none low statement code high

/-- Code that is made of the blocks of a program. The entry label of a function is one more than its place among them. -/
structure Code.InBlocks (code : Code) (program : Program) (layout : Layout)
    (bodies : List Code) (main : Code) : Prop where
  assembled : code = assemble bodies main
  functions : List.Forall₂ (fun function body => layout.Codes program function.body body)
    program.functions bodies
  main : layout.Codes program program.main main
  entries : ∀ index function, program.functions[index]? = some function →
    layout.entry? function.handle = some (index + 1)

namespace Code

variable {code main : Code} {bodies : List Code}

theorem mem_labels {label : Nat} : label ∈ code.labels ↔ .label label ∈ code := by
  induction code with
  | nil => simp
  | cons instruction rest ih => cases instruction <;> simp [ih, eq_comm]

theorem count_labels (label : Nat) : code.labels.count label = code.count (.label label) := by
  induction code with
  | nil => rfl
  | cons instruction rest ih =>
    -- Only a label instruction counts, and only for its own label.
    cases instruction with
    | label place => simp [count_cons, ih]
    | _ => simpa [count_cons] using ih

variable {entry : Nat} {instruction : Instruction}

theorem mem_blocks_of_mem {body : Code} (member : body ∈ bodies) (inside : instruction ∈ body)
    : instruction ∈ blocks entry bodies := by
  induction bodies generalizing entry with
  | nil => cases member
  | cons first rest ih =>
    simp only [blocks, mem_append, mem_cons]
    rcases mem_cons.mp member with rfl | later
    · exact .inl (.inr inside)
    · exact .inr (ih later)

theorem mem_of_mem_blocks (inside : instruction ∈ blocks entry bodies) :
    (∃ label, instruction = .label label) ∨ ∃ body ∈ bodies, instruction ∈ body := by
  induction bodies generalizing entry with
  | nil => cases inside
  | cons first rest ih =>
    simp only [blocks, mem_append, mem_cons] at inside
    rcases inside with (rfl | early) | late
    · exact .inl ⟨entry, rfl⟩
    · exact .inr ⟨first, mem_cons_self, early⟩
    · rcases ih late with isLabel | ⟨body, member, inBody⟩
      · exact .inl isLabel
      · exact .inr ⟨body, mem_cons_of_mem first member, inBody⟩

/-- Code of blocks that jump to their own labels only jumps to its own labels. -/
theorem assemble_closed (closed : ∀ block ∈ main :: bodies, block.Closed) :
    (assemble bodies main).Closed := by
  obtain ⟨ofMain, ofBodies⟩ := forall_mem_cons.mp closed
  unfold assemble
  split
  · exact ofMain
  · intro instruction member label jumps
    rw [mem_labels]
    simp only [mem_append, mem_cons, cons_append] at member ⊢
    rcases member with rfl | inside | rfl | inMain
    · -- The first jump leads to the label of the main block.
      cases jumps
      exact .inr (.inr (.inl rfl))
    · rcases mem_of_mem_blocks inside with ⟨place, rfl⟩ | ⟨body, isBody, inBody⟩
      · cases jumps
      · have placed := ofBodies body isBody instruction inBody label jumps
        exact .inr (.inl (mem_blocks_of_mem isBody (mem_labels.mp placed)))
    · cases jumps
    · have placed := ofMain instruction inMain label jumps
      exact .inr (.inr (.inr (mem_labels.mp placed)))

/-- Labels that are a run from zero, in any order, occur without gaps if all jumps and calls lead to them. -/
theorem labelledBelow_of_perm {count : Nat} (placed : code.labels.Perm (List.range count))
    (closed : code.Closed) (called : ∀ label, .call label ∈ code → label ∈ code.labels) :
    code.LabelledBelow count where
  occurring label := by
    have listed : label ∈ code.labels ↔ label < count := by rw [placed.mem_iff, mem_range]
    refine ⟨?_, fun below => ⟨.label label, mem_labels.mp (listed.mpr below), rfl⟩⟩
    rintro ⟨instruction, member, mentions⟩
    refine listed.mp ?_
    cases instruction with
    | goto place => exact closed _ member label mentions
    | ifFalse condition place => exact closed _ member label mentions
    | label place =>
      cases mentions
      exact mem_labels.mpr member
    | call place =>
      cases mentions
      exact called _ member
    | _ => cases mentions
  once label below := by
    rw [← count_labels, placed.count_eq]
    exact count_eq_one_of_mem nodup_range (mem_range.mpr below)

end Code

variable {program : Program} {layout : Layout} {owned : Nat → Handle → Prop}
  {scopes : List (Nat × Function)} {code : Code}

theorem FunctionsCoded.blocks {entry low high : Nat} {functions : List (Nat × Function)}
    (coded : FunctionsCoded program layout owned entry low functions code high) :
    ∃ bodies, code = Code.blocks entry bodies ∧
      List.Forall₂ (fun held body => layout.Codes program held.2.body body) functions bodies := by
  induction coded with
  | nil => exact ⟨[], rfl, .nil⟩
  | @cons entry low middle high scope function rest body code _ head _ ih =>
    obtain ⟨bodies, rfl, each⟩ := ih
    exact ⟨body :: bodies, rfl, .cons ⟨owned scope, low, middle, head⟩ each⟩

variable {scope : Nat}

theorem ProgramCoded.inBlocks (coded : ProgramCoded program layout owned scope scopes code)
    (same : scopes.map Prod.snd = program.functions) :
    ∃ bodies main, code.InBlocks program layout bodies main := by
  have entries : ∀ index function, program.functions[index]? = some function →
      layout.entry? function.handle = some (index + 1) := by
    intro index function found
    rw [← same, getElem?_map] at found
    obtain ⟨held, isAt, rfl⟩ := Option.map_eq_some_iff.mp found
    exact coded.entries index held isAt
  cases coded with
  | plain ofMain =>
    exact ⟨[], code, rfl, by rw [← same]; exact .nil, ⟨_, _, _, ofMain⟩, entries⟩
  | @behind middle high _ functions main ofFunctions ofMain filled =>
    obtain ⟨bodies, rfl, each⟩ := ofFunctions.blocks
    refine ⟨bodies, main, ?_, ?_, ⟨_, _, _, ofMain⟩, entries⟩
    · -- There are as many blocks as functions, so the code starts with the jump.
      have some : bodies.isEmpty = false := by
        cases each with
        | nil => exact absurd rfl filled
        | cons => rfl
      simp [Code.assemble, some]
    · rw [← same, forall₂_map_left_iff]
      exact each

/-- Every block of a program jumps to its own labels only. -/
theorem Code.InBlocks.closed {bodies : List Code} {main : Code}
    (inBlocks : code.InBlocks program layout bodies main) :
    ∀ block ∈ main :: bodies, block.Closed := by
  intro block member
  rcases mem_cons.mp member with rfl | isBody
  · obtain ⟨owned, low, high, coded⟩ := inBlocks.main
    exact coded.closed
  · obtain ⟨index, below, rfl⟩ := getElem_of_mem isBody
    have known : index < program.functions.length := by
      rw [inBlocks.functions.length_eq]
      exact below
    obtain ⟨owned, low, high, coded⟩ := inBlocks.functions.get known below
    exact coded.closed

/-- What is called is the entry label of a function, which is placed. -/
theorem ProgramCoded.called (coded : ProgramCoded program layout owned scope scopes code)
    (same : scopes.map Prod.snd = program.functions) {label : Nat} (member : .call label ∈ code) :
    ∃ index function, program.functions[index]? = some function ∧ label = index + 1 ∧
      label ∈ code.labels := by
  obtain ⟨place, found⟩ := mem_iff_getElem?.mp member
  obtain ⟨owner, start, function, values, -, call, -⟩ := coded.calling same place label found
  -- The callee is one of the functions of the program, and stands behind its label.
  obtain ⟨own, isHeld, -⟩ := held_of_function? same call.known
  obtain ⟨index, isAt⟩ := mem_iff_getElem?.mp isHeld
  cases call.entry.symm.trans (coded.entries index _ isAt)
  obtain ⟨target, -, -, -, -, labelled, -⟩ := coded.located isAt
  refine ⟨index, function, ?_, rfl, Code.mem_labels.mpr (mem_of_getElem? labelled)⟩
  rw [← same, getElem?_map, isAt]
  rfl

namespace Compiler

/--
The labels of compiled code are numbered without gaps, and each of them is placed once.

Every call leads to the entry label of a function.
All other jumps lead to a label of the block that they stand in, except for the one over the functions.
-/
theorem compile_labels_closed {compiler : Compiler} (standard : Compiler.standard = .ok compiler)
    {text : Text} {compilation : Compilation} (compiled : compiler.compile text = .ok compilation) :
    ∃ program layout bodies main count, Program.read? compilation.tree = some program ∧
      compilation.code.InBlocks program layout bodies main ∧
      compilation.code.LabelledBelow count ∧
      (∀ label, .call label ∈ compilation.code → ∃ index function,
        program.functions[index]? = some function ∧ label = index + 1) ∧
      ∀ block ∈ main :: bodies, block.Closed := by
  obtain ⟨program, base, read, inside, generated, -⟩ := compile_generated standard compiled
  obtain ⟨error, failed⟩ | ⟨code, supply, context, scopes, scope, isCode, -, same, -, -, coded⟩ :=
    generate_cases read inside
  · rw [generated] at failed
    cases failed
  · cases (Prod.mk.inj (generated.symm.trans isCode)).1
    -- The supply behind the program tells how many labels were drawn.
    have placed : ∃ count, compilation.code.labels.Perm (List.range count) := by
      rw [generate] at generated
      cases ran : (Generate.program base.constants compilation.tree).run (Generate.start base) with
      | mk result after =>
        rw [ran] at generated
        cases (Prod.mk.inj generated).1
        exact ⟨after.nextLabel, Generate.program_places read inside _ _ ran⟩
    obtain ⟨count, placed⟩ := placed
    obtain ⟨bodies, main, inBlocks⟩ := coded.inBlocks same
    have closed := inBlocks.closed
    have all : compilation.code.Closed := by
      rw [inBlocks.assembled]
      exact Code.assemble_closed closed
    refine ⟨program, _, bodies, main, count, read, inBlocks,
      Code.labelledBelow_of_perm placed all fun label member => ?_, fun label member => ?_, closed⟩
    · obtain ⟨_, _, -, -, isPlaced⟩ := coded.called same member
      exact isPlaced
    · obtain ⟨index, function, found, isLabel, -⟩ := coded.called same member
      exact ⟨index, function, found, isLabel⟩

/-- A function with branches and a loop, and a main block with a branch in a loop. Both call the function. -/
def labelledText : Text :=
  ("func int #f(int #n) \x7b if (#n > 1) \x7b return 1; \x7d elseif (#n < 0) \x7b return 2; \x7d " : Text) ++
    "else \x7b meanwhile (#n == 0) \x7b #n = call #f(#n); \x7d done \x7d fi return #n; \x7d " ++
    "start var int #x; meanwhile (#x < 9) \x7b if (#x > 3) \x7b #x = call #f(#x); \x7d fi \x7d done end"

/-- The labels stand out of order, and all of them occur up to the greatest one. -/
theorem compile_labels_closed_out_of_order : ∃ compiler compilation,
    Compiler.standard = .ok compiler ∧ compiler.compile labelledText = .ok compilation ∧
    compilation.code.labels = [1, 2, 3, 5, 6, 4, 0, 7, 9, 8] ∧
    compilation.code.LabelledBelow 10 := by
  have computed : (Compiler.standard.toOption.bind fun compiler =>
      (compiler.compile labelledText).toOption.bind fun compilation =>
        some compilation.code.labels) = some [1, 2, 3, 5, 6, 4, 0, 7, 9, 8] := by
    decide +kernel
  obtain ⟨compiler, standard, computed⟩ := ok_of_toOption_bind computed
  obtain ⟨compilation, compiled, labels⟩ := ok_of_toOption_bind computed
  obtain ⟨_, _, _, _, count, -, -, labelled, -⟩ := compile_labels_closed standard compiled
  -- Nine is the greatest label in the code, so ten is the only count.
  have occurs : ∀ label, label ∈ compilation.code.labels → label < count := fun label member =>
    (labelled.occurring label).mp ⟨_, Code.mem_labels.mp member, rfl⟩
  have bounded : ∀ label < count, label ∈ compilation.code.labels := fun label below =>
    Code.mem_labels.mpr (count_pos_iff.mp (by rw [labelled.once label below]; exact Nat.one_pos))
  rw [Option.some.inj labels] at occurs bounded
  have lower := occurs 9 (by decide)
  have upper : ¬ 10 < count := fun above => absurd (bounded 10 above) (by decide)
  obtain rfl : count = 10 := by omega
  exact ⟨compiler, compilation, standard, compiled, Option.some.inj labels, labelled⟩

end Compiler

end ThreeAddress

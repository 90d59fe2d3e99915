import ThreeAddress.Proofs.Code.Flow
import ThreeAddress.Proofs.Compiler.Meaning

/-!
Where functions end in compiled code.

The code of a function is followed by the next function or by the main block.
Control runs on into it exactly if the body of the function can come to its end without a return.
-/

namespace ThreeAddress

open Source List

/-- The labels in front of the main block and of the functions of a program. The main block has the first one, and then each function has one. -/
def Source.Program.entries (program : Program) : List Nat :=
  List.range (program.functions.length + 1)

/-- A place that does not belong to the function behind a label: the end of the code, or the label of the main block or of another function. -/
def Code.Foreign (code : Code) (entries : List Nat) (own place : Nat) : Prop :=
  place = code.length ∨ ∃ label ∈ entries, label ≠ own ∧ code[place]? = some (.label label)

variable {program : Program} {layout : Layout} {owned : Nat → Handle → Prop}

/--
Control stays inside a function exactly if its body cannot come to an end without a return.

From the label of any other function there is a path without a return to the next function or to the main block.
-/
theorem Compiler.compile_confines_iff {compiler : Compiler}
    (standard : Compiler.standard = .ok compiler) {text : Text} {compilation : Compilation}
    (compiled : compiler.compile text = .ok compilation) :
    ∃ program, Program.read? compilation.tree = some program ∧
      ∀ (index : Nat) (function : Function), program.functions[index]? = some function →
        ∃ start, compilation.code[start]? = some (.label (index + 1)) ∧
          ((∀ place, compilation.code.Leads start place →
              ¬ compilation.code.Foreign program.entries (index + 1) place) ↔
            function.body.finishes = false) := by
  obtain ⟨program, base, supply, context, scopes, scope, read, -, same, -, -, -, coded⟩ :=
    compile_layout standard compiled
  refine ⟨program, read, fun index function found => ?_⟩
  have count : scopes.length = program.functions.length := by rw [← same, length_map]
  obtain ⟨held, inScope, rfl⟩ : ∃ held, scopes[index]? = some held ∧ held.2 = function := by
    rw [← same, getElem?_map] at found
    exact Option.map_eq_some_iff.mp found
  obtain ⟨start, lower, body, higher, next, labelled, placed, above, codedBody, behind, known,
    other⟩ := coded.located inScope
  have enters : compilation.code.Leads start (start + 1) :=
    Relation.ReflTransGen.single (.next labelled rfl)
  refine ⟨start, labelled, ?_⟩
  cases finishes : held.2.body.finishes with
  | true =>
    -- The path over the body ends at a label that belongs to something else.
    simp only [Bool.true_eq_false, iff_false, not_forall, not_not]
    refine ⟨start + 1 + body.length, enters.trans (codedBody.leads_of_finishes finishes placed), ?_⟩
    exact .inr ⟨next, mem_range.mpr (by omega), other, behind⟩
  | false =>
    simp only [iff_true]
    intro place leads foreign
    -- A path leaves the label for the body, and cannot leave the body.
    have inside : place = start ∨ (start + 1 ≤ place ∧ place < start + 1 + body.length) := by
      rcases Relation.ReflTransGen.cases_head leads with rfl | ⟨first, flows, further⟩
      · exact .inl rfl
      · obtain rfl : first = start + 1 := by
          cases flows with
          | next => rfl
          | jump here jumps =>
            cases here.symm.trans labelled
            cases jumps
        exact .inr (codedBody.confines coded.labels finishes placed place further)
    have bound : start + 1 + body.length < compilation.code.length :=
      (List.getElem?_eq_some_iff.mp behind).1
    rcases foreign with ends | ⟨label, entry, notOwn, there⟩
    · omega
    · rcases inside with rfl | ⟨first, last⟩
      · cases labelled.symm.trans there
        exact notOwn rfl
      · -- The labels of a body are drawn behind those of all functions.
        have here := placed (place - (start + 1)) (by omega)
        rw [Nat.add_sub_cancel' first, there, eq_comm] at here
        have isLabel : label ∈ body.labels := mem_filterMap.mpr ⟨_, mem_of_getElem? here, rfl⟩
        have drawn := (codedBody.labels (by simp)).2.2.1 label isLabel
        have := mem_range.mp entry
        simp only [Taken] at drawn
        omega

/-- A function that returns on both sides of a test, in front of one that does nothing. -/
def idleText : Text :=
  ("func int #f(int #n) \x7b if (#n > 0) \x7b return 1; \x7d else \x7b return 2; \x7d fi \x7d " : Text) ++
    "func int #g() \x7b \x7d start end"

/-- The text compiles, and its second function is nothing but a label in front of that of the main block. -/
theorem idleText_compiled : (Compiler.standard.toOption.bind fun compiler =>
    (compiler.compile idleText).toOption.bind fun compilation =>
      (Program.read? compilation.tree).map fun program =>
        (program.functions.map fun function => function.body.finishes,
          compilation.code.drop 11)) = some ([false, true], [.label 2, .label 0]) := by
  decide +kernel

/-- Control runs on from a function that does nothing into the main block. -/
theorem Compiler.compile_runs_on : ∃ compiler compilation program function start place,
    Compiler.standard = .ok compiler ∧ compiler.compile idleText = .ok compilation ∧
      Program.read? compilation.tree = some program ∧
      program.functions[1]? = some function ∧
      compilation.code[start]? = some (.label 2) ∧ compilation.code.Leads start place ∧
      compilation.code.Foreign program.entries 2 place := by
  obtain ⟨compiler, standard, computed⟩ := ok_of_toOption_bind idleText_compiled
  obtain ⟨compilation, compiled, computed⟩ := ok_of_toOption_bind computed
  obtain ⟨program, read, answers⟩ := Option.map_eq_some_iff.mp computed
  obtain ⟨bodies, code⟩ := Prod.mk.inj answers
  have placed : compilation.code.At 11 [.label 2, .label 0] := fun index _ => by
    rw [← code, getElem?_drop]
  obtain ⟨first, rest, functions, -, others⟩ := map_eq_cons_iff.mp bodies
  obtain ⟨second, last, behind, -, -⟩ := map_eq_cons_iff.mp others
  refine ⟨compiler, compilation, program, second, 11, 12, standard, compiled, read,
    by simp [functions, behind], placed.head,
    Relation.ReflTransGen.single (.next placed.head rfl), ?_⟩
  exact .inr ⟨0, mem_range.mpr (by omega), by decide, placed.tail.head⟩

/-- Control stays inside the function that returns on both sides of its test. -/
theorem Compiler.compile_confines_idle : ∃ compiler compilation program start,
    Compiler.standard = .ok compiler ∧ compiler.compile idleText = .ok compilation ∧
      Program.read? compilation.tree = some program ∧
      compilation.code[start]? = some (.label 1) ∧
      ∀ place, compilation.code.Leads start place →
        ¬ compilation.code.Foreign program.entries 1 place := by
  obtain ⟨compiler, standard, computed⟩ := ok_of_toOption_bind idleText_compiled
  obtain ⟨compilation, compiled, computed⟩ := ok_of_toOption_bind computed
  obtain ⟨program, read, answers⟩ := Option.map_eq_some_iff.mp computed
  obtain ⟨bodies, -⟩ := Prod.mk.inj answers
  obtain ⟨_, isRead, confines⟩ := compile_confines_iff standard compiled
  cases read.symm.trans isRead
  obtain ⟨first, rest, functions, returns, -⟩ := map_eq_cons_iff.mp bodies
  obtain ⟨start, labelled, stays⟩ := confines 0 first (by simp [functions])
  exact ⟨compiler, compilation, program, start, standard, compiled, read, labelled,
    stays.mpr returns⟩

end ThreeAddress

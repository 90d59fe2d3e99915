import ThreeAddress.Proofs.Code.Program
import ThreeAddress.Proofs.Grammar.Loading

/-!
Compiling a text gives a program or an error in the text, and nothing else.

A text that parses reads as a well-scoped program, so its tree has all that code generation looks for.
-/

namespace ThreeAddress

open Source

variable {environment : Environment} {tree : SyntaxTree} {program : Program}

/-- Generation of a well-scoped program makes code if its types fit, and reports an error of types otherwise. -/
theorem generate_made (read : Program.read? tree = some program)
    (inside : program.ScopedIn environment) :
    (¬ program.WellTyped environment ∧ ∃ error,
        (generate environment tree).1 = .error (.diagnostic error) ∧ error.IsTyping) ∨
      ∃ code supply, generate environment tree = (.ok code, supply.symbols) ∧
        Generate.Compiles environment program code supply := by
  have accepts := Generate.program_accepts read inside
  simp only [Generate.Accepts] at accepts
  rw [generate]
  cases ran : (Generate.program environment.constants tree).run (Generate.start environment) with
  | mk result supply =>
    rw [ran] at accepts
    cases result with
    | ok code => exact .inr ⟨code, supply, rfl, accepts⟩
    | error failure =>
      obtain ⟨untyped, error, rfl, isTyping⟩ := accepts
      exact .inl ⟨untyped, error, rfl, isTyping⟩

theorem generate_cases (read : Program.read? tree = some program)
    (inside : program.ScopedIn environment) :
    (∃ error, (generate environment tree).1 = .error (.diagnostic error)) ∨
      ∃ code supply context scopes scope, generate environment tree = (.ok code, supply.symbols) ∧
        (Generate.start environment).Grown supply ∧
        scopes.map Prod.snd = program.functions ∧ FunctionsIn environment scopes ∧
        scope ∉ scopes.map Prod.fst ∧
        ProgramCoded program (Context.layout context supply) environment.symbols.Owned scope scopes
          code := by
  obtain ⟨-, error, failed, -⟩ | ⟨code, supply, generated, made⟩ := generate_made read inside
  · exact .inl ⟨error, failed⟩
  · obtain ⟨context, scopes, scope, same, functionsIn, apart, coded⟩ := made.coded
    exact .inr ⟨code, supply, context, scopes, scope, generated, made.grown, same, functionsIn,
      apart, coded⟩

namespace Compiler

variable {compiler : Compiler} {text : Text}

theorem compile_of_error {failure : Failure} (failed : compiler.parse text = .error failure) :
    compiler.compile text = .error failure := by
  have inParse : compiler.parseIn Environment.empty text false = .error failure := failed
  simp only [compile, compileIn, inParse]
  rfl

theorem compile_of_ok {tree : SyntaxTree} {environment : Environment}
    (parsed : compiler.parse text = .ok (tree, environment)) :
    compiler.compile text = (generate environment (normalize tree)).1.map fun code =>
      { environment := { environment with symbols := (generate environment (normalize tree)).2 }
        tree := normalize tree, code } := by
  have inParse : compiler.parseIn Environment.empty text false = .ok (tree, environment) := parsed
  simp only [compile, compileIn, inParse]
  rfl

theorem parse_cases (faithful : compiler.table.Faithful Language.standardGrammar) (text : Text) :
    (∃ error, compiler.parse text = .error (.diagnostic error)) ∨
      ∃ tree environment program, compiler.parse text = .ok (tree, environment) ∧
        Program.read? (normalize tree) = some program ∧ program.ScopedIn environment := by
  have reporting : ({ table := compiler.table } : Parser).halting = false := rfl
  rcases Language.parse_lexFrom reporting faithful text with ⟨tree, parsed⟩ | ⟨error, failed⟩
  · right
    obtain ⟨derivation, start, scans⟩ := Language.scans_of_parse faithful parsed
    obtain ⟨program, read, inside⟩ := Language.program_scoped derivation start scans
    refine ⟨tree, (Language.lexFrom .empty text).2.environment, program, ?_, read, inside⟩
    simp only [parse, parseIn, parsed]
    rfl
  · left
    refine ⟨error, ?_⟩
    simp only [parse, parseIn, failed]
    rfl

theorem compile_generated (standard : Compiler.standard = .ok compiler)
    {compilation : Compilation} (compiled : compiler.compile text = .ok compilation) :
    ∃ program base, Program.read? compilation.tree = some program ∧ program.ScopedIn base ∧
      generate base compilation.tree = (.ok compilation.code, compilation.environment.symbols) ∧
      compilation.environment.constants = base.constants := by
  obtain ⟨other, isStandard, faithful⟩ := standard_faithful
  cases isStandard.symm.trans standard
  rcases parse_cases faithful text with
    ⟨error, failed⟩ | ⟨tree, base, program, parsed, read, inside⟩
  · rw [compile_of_error failed] at compiled
    cases compiled
  · rw [compile_of_ok parsed] at compiled
    cases generated : generate base (normalize tree) with
    | mk result symbols =>
      cases result with
      | error failure =>
        rw [generated] at compiled
        cases compiled
      | ok code =>
        rw [generated] at compiled
        cases compiled
        exact ⟨program, base, read, inside, generated, rfl⟩

/--
Every text compiles or is reported.

A text that does not parse has an error in it, and that error is the answer.
Any other reads as a well-scoped program, and compiling it gives code for its tree or an error in it.
-/
theorem compile_result_or_diagnostic :
    ∃ compiler, Compiler.standard = .ok compiler ∧ ∀ text : Text,
      (∃ error, compiler.parse text = .error (.diagnostic error) ∧
        compiler.compile text = .error (.diagnostic error)) ∨
      ∃ tree environment program, compiler.parse text = .ok (tree, environment) ∧
        Program.read? (normalize tree) = some program ∧ program.ScopedIn environment ∧
        ((∃ compilation, compiler.compile text = .ok compilation ∧
            compilation.tree = normalize tree) ∨
          ∃ error, compiler.compile text = .error (.diagnostic error)) := by
  obtain ⟨compiler, isStandard, faithful⟩ := standard_faithful
  refine ⟨compiler, isStandard, fun text => ?_⟩
  rcases parse_cases faithful text with
    ⟨error, failed⟩ | ⟨tree, environment, program, parsed, read, inside⟩
  · exact .inl ⟨error, failed, compile_of_error failed⟩
  · refine .inr ⟨tree, environment, program, parsed, read, inside, ?_⟩
    rw [compile_of_ok parsed]
    rcases generate_cases read inside with ⟨error, failed⟩ | ⟨code, _, _, _, _, generated, -⟩
    · rw [failed]
      exact .inr ⟨error, rfl⟩
    · rw [generated]
      exact .inl ⟨_, rfl, rfl⟩

end Compiler

end ThreeAddress

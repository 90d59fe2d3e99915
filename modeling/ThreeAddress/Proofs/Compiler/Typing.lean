import ThreeAddress.Proofs.Compiler.Safety

/-!
The texts that compile are those of well-typed programs.

Every text that parses reads as a program, and whether there is code for it depends on the types of that program alone.
-/

namespace ThreeAddress

open Source

theorem generate_decides {environment : Environment} {tree : SyntaxTree} {program : Program}
    (read : Program.read? tree = some program) (inside : program.ScopedIn environment) :
    (program.WellTyped environment ∧ ∃ code, (generate environment tree).1 = .ok code) ∨
      (¬ program.WellTyped environment ∧ ∃ error,
        (generate environment tree).1 = .error (.diagnostic error) ∧ error.IsTyping) := by
  obtain untyped | ⟨code, supply, generated, made⟩ := generate_made read inside
  · exact .inr untyped
  · exact .inl ⟨made.typed, code, congrArg Prod.fst generated⟩

namespace Compiler

/--
Code is generated for exactly the well-typed programs.

A program that is not well typed is reported with an error of types, and with no other.
-/
theorem generate_iff_wellTyped {compiler : Compiler} (standard : Compiler.standard = .ok compiler)
    {text : Text} {tree : SyntaxTree} {environment : Environment}
    (parsed : compiler.parse text = .ok (tree, environment)) :
    ∃ program, Program.read? (normalize tree) = some program ∧
      ((∃ code, (generate environment (normalize tree)).1 = .ok code) ↔
        program.WellTyped environment) ∧
      (¬ program.WellTyped environment → ∃ error,
        (generate environment (normalize tree)).1 = .error (.diagnostic error) ∧
          error.IsTyping) := by
  obtain ⟨other, isStandard, faithful⟩ := standard_faithful
  cases standard.symm.trans isStandard
  rcases parse_cases faithful text with ⟨error, failed⟩ | ⟨_, _, program, again, read, inside⟩
  · cases parsed.symm.trans failed
  · cases parsed.symm.trans again
    refine ⟨program, read, ?_⟩
    rcases generate_decides read inside with ⟨typed, generated⟩ | ⟨untyped, error, failed, isTyping⟩
    · exact ⟨⟨fun _ => typed, fun _ => generated⟩, fun untyped => absurd typed untyped⟩
    · refine ⟨⟨?_, fun typed => absurd typed untyped⟩, fun _ => ⟨error, failed, isTyping⟩⟩
      rintro ⟨code, generated⟩
      cases failed.symm.trans generated

/-- A program in which every rule for types is used. -/
def typedText : Text :=
  ("func boolean #above(float #n, char #c) \x7b return #n > 1.5 && #c != 'x'; \x7d " : Text) ++
    "start var boolean #b; #b = call #above(2.5 * 2.0, 'y'); meanwhile (#b) \x7b #b = 1 == 2; \x7d done end"

/-- A program that passes the arguments of a call in the wrong order. -/
def mistypedText : Text :=
  ("func boolean #above(float #n, char #c) \x7b return #n > 1.5; \x7d " : Text) ++
    "start var boolean #b; #b = call #above('y', 2.5); end"

/-- Whether there is code for what was parsed. -/
def generates (parsed : SyntaxTree × Environment) : Bool :=
  (generate parsed.2 (normalize parsed.1)).1.isOk

/-- Both texts parse, and code is generated for the first of them only. -/
theorem typedTexts_generated : (Compiler.standard.toOption.bind fun compiler =>
    (compiler.parse typedText).toOption.bind fun typed =>
      (compiler.parse mistypedText).toOption.bind fun mistyped =>
        some (generates typed, generates mistyped)) = some (true, false) := by
  decide +kernel

/-- The first program is well typed, and the second is not, which is reported. -/
theorem generate_iff_wellTyped_arguments : ∃ compiler, Compiler.standard = .ok compiler ∧
    (∃ tree environment program, compiler.parse typedText = .ok (tree, environment) ∧
      Program.read? (normalize tree) = some program ∧ program.WellTyped environment) ∧
    ∃ tree environment program error, compiler.parse mistypedText = .ok (tree, environment) ∧
      Program.read? (normalize tree) = some program ∧ ¬ program.WellTyped environment ∧
      (generate environment (normalize tree)).1 = .error (.diagnostic error) ∧
      error.IsTyping := by
  obtain ⟨compiler, standard, computed⟩ := ok_of_toOption_bind typedTexts_generated
  obtain ⟨⟨tree, environment⟩, parsed, computed⟩ := ok_of_toOption_bind computed
  obtain ⟨⟨otherTree, otherEnvironment⟩, otherParsed, answers⟩ := ok_of_toOption_bind computed
  simp only [Option.some.injEq, Prod.mk.injEq] at answers
  obtain ⟨succeeds, fails⟩ := answers
  refine ⟨compiler, standard, ?_, ?_⟩
  · obtain ⟨program, read, iff, -⟩ := generate_iff_wellTyped standard parsed
    refine ⟨tree, environment, program, parsed, read, iff.mp ?_⟩
    cases generated : (generate environment (normalize tree)).1 with
    | ok code => exact ⟨code, rfl⟩
    | error failure => simp [generates, generated, Except.isOk, Except.toBool] at succeeds
  · obtain ⟨program, read, iff, reported⟩ := generate_iff_wellTyped standard otherParsed
    have untyped : ¬ program.WellTyped otherEnvironment := by
      intro typed
      obtain ⟨code, generated⟩ := iff.mpr typed
      simp [generates, generated, Except.isOk, Except.toBool] at fails
    obtain ⟨error, isError, isTyping⟩ := reported untyped
    exact ⟨otherTree, otherEnvironment, program, error, otherParsed, read, untyped, isError,
      isTyping⟩

end Compiler

end ThreeAddress

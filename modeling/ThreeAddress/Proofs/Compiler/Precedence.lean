import ThreeAddress.Proofs.Compiler.Meaning
import ThreeAddress.Proofs.Compiler.Typing
import ThreeAddress.Proofs.Language.Printed
import ThreeAddress.Proofs.Language.Spelling

/-!
Precedence, associativity and parentheses in compiled code.

A program that assigns an expression compiles to the operations of that expression in the order of their evaluation, and a move.
What the expression is depends on its words only through their levels.
-/

namespace ThreeAddress

open Source ThreeAddress.Language

/-- The operation that an instruction applies. -/
def Instruction.operation? : Instruction → Option BinaryOperation
  | .binary operation _ _ _ => some operation
  | _ => none

/-- The code of an expression applies each of its operations once, in the order of their evaluation. -/
theorem Computes.operations {scratch owned : Handle → Prop} {low high : Nat}
    {expression : Expression} {code : Code} {value : Value}
    (computes : Computes scratch owned low expression code value high) :
    code.map Instruction.operation? = expression.operations.map some := by
  induction computes with
  | name => rfl
  | literal => rfl
  | binary _ _ _ ihLeft ihRight =>
    simp [Expression.operations, ihLeft, ihRight, Instruction.operation?]

section Layout

variable {program : Program} {layout : Layout} {owned : Handle → Prop}

theorem Coded.behindDeclarations {statement : Statement} {code : Code} {high : Nat} :
    ∀ {count low : Nat}, Coded program layout owned none low
      (Language.behindDeclarations count statement) code high →
    ∃ middle, Coded program layout owned none middle statement code high := by
  intro count
  induction count with
  | zero => exact fun coded => ⟨_, coded⟩
  | succ count ih =>
    intro low coded
    cases coded with
    | seq ofFirst ofSecond =>
      cases ofFirst
      exact ih ofSecond

theorem Coded.assignment {low high : Nat} {target : Handle} {expression : Expression}
    {code : Code}
    (coded : Coded program layout owned none low (.seq (.assign target expression) .skip) code high) :
    ∃ instructions value first last, code = instructions ++ [.move target value] ∧ owned target ∧
      Computes layout.scratch owned first expression instructions value last := by
  cases coded with
  | seq ofFirst ofSecond =>
    cases ofFirst with
    | assign own computes =>
      cases ofSecond
      exact ⟨_, _, _, _, by rw [List.append_nil], own, computes⟩

end Layout

/-- The machine executes an assignment and halts: the variable has the value, and all but temporaries is as before. -/
theorem Computes.assigns {V : Type} {scratch owned : Handle → Prop} {low high : Nat}
    {expression : Expression} {code : Code} {value : Value} {target : Handle}
    (computes : Computes scratch owned low expression code value high)
    (lasting : ∀ handle, owned handle → ¬ scratch handle) (meaning : Interpretation V)
    (store : Store V) :
    ∃ count final, Machine.run meaning (code ++ [.move target value]) count ⟨0, store, []⟩ =
        .halted final ∧ final target = expression.eval meaning store ∧
      ∀ handle, handle ≠ target → ¬ scratch handle → final handle = store handle := by
  have placed : Code.At (code ++ [.move target value]) 0 (code ++ [.move target value]) :=
    fun index _ => by rw [Nat.zero_add]
  obtain ⟨after, reaches, found, framed⟩ :=
    @Computes.executes V meaning _ _ _ _ _ _ _ _ lasting computes 0 store [] placed.left
  -- Behind the code of the expression stands the move, and behind that nothing.
  have here := placed.right.head
  have moved : Machine.Reaches meaning (code ++ [.move target value])
      ⟨0 + code.length, after, []⟩
      ⟨0 + code.length + 1, after.set target (expression.eval meaning store), []⟩ :=
    .single (by simp only [Machine.step, here, Machine.advance, found])
  have stops : Machine.step meaning (code ++ [.move target value])
      ⟨0 + code.length + 1, after.set target (expression.eval meaning store), []⟩ =
      .halted (after.set target (expression.eval meaning store)) := by
    simp [Machine.step]
  obtain ⟨count, halts⟩ := (reaches.trans moved).halts stops
  refine ⟨count, _, halts, Store.set_self _ _ _, fun handle other kept => ?_⟩
  rw [Store.set_of_ne _ _ other]
  exact (framed.agree handle kept).symm

namespace Language

theorem lookup?_declared {declared : Declarations} {table : SymbolTable}
    (entries : table.entries = (mainTable declared.entries).entries) {name : Text}
    {type : ValueType} (known : (name, type) ∈ declared.entries) :
    table.lookup? (declared.handle name) = some (.var { name, type, scope := some 1 }) := by
  obtain ⟨index, inside, found⟩ := List.mem_iff_getElem.mp known
  have place : (declared.entries.map Prod.fst).idxOf name = index := by
    have named : (declared.entries.map Prod.fst)[index]? = some name := by
      simp [List.getElem?_eq_getElem inside, found]
    obtain ⟨within, same⟩ := List.getElem?_eq_some_iff.mp named
    rw [← same]
    exact declared.distinct.idxOf_getElem index within
  have looked : (mainTable declared.entries).entries[index]? =
      some (.var { name, type, scope := some 1 }) := by
    simp [mainTable, List.getElem?_eq_getElem inside, found]
  rw [SymbolTable.lookup?_congr entries, Declarations.handle, place]
  exact looked

theorem wellTyped_behindDeclarations {environment : Environment} {returns : ValueType}
    {statement : Statement} (typed : statement.WellTyped environment returns) (count : Nat) :
    (behindDeclarations count statement).WellTyped environment returns := by
  induction count with
  | zero => exact typed
  | succ count ih => exact ⟨trivial, ih⟩

end Language

namespace Compiler

theorem parse_assignment {compiler : Compiler}
    (faithful : compiler.table.Faithful standardGrammar) {declared : Declarations}
    {target : Text} {type other : ValueType} {value : Written}
    (known : (target, other) ∈ declared.entries) (typed : value.HasType declared type)
    {text : Text} (spelled : words text = assignmentWords declared target value) :
    ∃ tree environment expression, compiler.parse text = .ok (tree, environment) ∧
      Program.read? (normalize tree) = some (assignmentProgram declared target expression) ∧
      Resolves declared environment.constants value expression ∧
      environment.symbols.entries = (mainTable declared.entries).entries := by
  obtain ⟨tokens, after, lexes, tree, expression, derivation, start, rfl, read, resolves, entries⟩ :=
    lexed_assignment known typed _ spelled
  -- The parser is given the tokens of the derivation and then the end of the text.
  have source : lexFrom .empty text =
      (⟨(SyntaxTree.tokens tree ++ [Token.atEnd text.length]).map fun token =>
        { outcome := .ok token }, Token.atEnd text.length⟩, after) := by
    simp [lexFrom, lexes.readPieces]
  have proper : ∀ token ∈ SyntaxTree.tokens tree, token.isEnd = false := by
    intro token member
    rw [← lexes.trace] at member
    obtain ⟨entry, traced, rfl⟩ := List.mem_map.mp member
    exact trace_not_end (fun piece inside => isNumbered_of_mem inside) traced
  obtain ⟨found, parsed, same⟩ := @Parser.parse_complete_before { table := compiler.table } _
    (Token.atEnd text.length) tree standardGrammar_wellFormed faithful standardGrammar_isLL1
    derivation start proper [Token.atEnd text.length] rfl rfl
  refine ⟨found, after.environment, expression, ?_, read found same, resolves, entries⟩
  simp only [parse, parseIn, source, parsed]
  rfl

/-- What reads as the assignment of a well-typed expression is compiled to the code of that expression and a move. -/
theorem generate_assignment {environment : Environment} {tree : SyntaxTree}
    {declared : Declarations} {target : Text} {type : ValueType} {value : Written}
    {expression : Expression} (known : (target, type) ∈ declared.entries)
    (typed : value.HasType declared type)
    (read : Program.read? tree = some (assignmentProgram declared target expression))
    (inside : (assignmentProgram declared target expression).ScopedIn environment)
    (resolves : Resolves declared environment.constants value expression)
    (entries : environment.symbols.entries = (mainTable declared.entries).entries) :
    ∃ code supply instructions source first last, generate environment tree =
        (.ok code, Supply.symbols supply) ∧ (Generate.start environment).Grown supply ∧
      code = instructions ++ [.move (declared.handle target) source] ∧
      ∃ scope, Computes supply.symbols.Scratch (environment.symbols.Owned scope) first expression
        instructions source last := by
  have found : ∀ name type, (name, type) ∈ declared.entries → ∃ entry,
      environment.symbols.lookup? (declared.handle name) = some (.var entry) ∧
        entry.type = type := by
    intro name type listed
    exact ⟨_, lookup?_declared entries listed, rfl⟩
  have assigned : (Statement.assign (declared.handle target) expression).WellTyped environment
      .int := by
    obtain ⟨entry, looked, rfl⟩ := found target type known
    exact ⟨entry, looked, resolves.hasType typed rfl found⟩
  have block : (Statement.seq (.assign (declared.handle target) expression) .skip).WellTyped
      environment .int := ⟨assigned, trivial⟩
  have wellTyped : (assignmentProgram declared target expression).WellTyped environment :=
    ⟨by simp [assignmentProgram], wellTyped_behindDeclarations block _⟩
  rcases generate_decides read inside with ⟨-, made, isMade⟩ | ⟨untyped, -⟩
  · -- There is code since the types fit, and its layout is that of the program.
    rcases generate_cases read inside with ⟨error, failed⟩ |
      ⟨code, supply, context, scopes, scope, generated, grown, same, -, -, coded⟩
    · cases failed.symm.trans isMade
    · -- There are no functions, so the code is that of the main block.
      obtain rfl : scopes = [] := List.map_eq_nil_iff.mp same
      cases coded with
      | behind _ _ filled => exact absurd rfl filled
      | plain ofMain =>
        obtain ⟨_, codedMain⟩ := ofMain.behindDeclarations
        obtain ⟨instructions, source, first, last, layout, -, computes⟩ := codedMain.assignment
        exact ⟨code, supply, instructions, source, first, last, generated, grown, layout, scope,
          computes⟩
  · exact absurd wellTyped untyped

/--
Precedence, associativity and parentheses survive compilation.

The words of an assignment are those of some text, and every such text compiles.
Its code applies each operation of the expression once, in the order of their evaluation, and then moves the value.
Executed on any store it leaves the value of the expression in the variable, and all other variables as they were.
-/
theorem compile_respects_precedence {compiler : Compiler}
    (standard : Compiler.standard = .ok compiler) (declared : Declarations) {target : Text}
    {type : ValueType} (known : (target, type) ∈ declared.entries) {value : Written}
    (typed : value.HasType declared type) :
    (∃ text, words text = assignmentWords declared target value) ∧
    ∀ text, words text = assignmentWords declared target value →
      ∃ compilation instructions source, compiler.compile text = .ok compilation ∧
        compilation.code = instructions ++ [.move (declared.handle target) source] ∧
        instructions.map Instruction.operation? = value.operations.map some ∧
        (∀ name type, (name, type) ∈ declared.entries → ∃ entry,
          compilation.environment.symbols.lookup? (declared.handle name) = some (.var entry) ∧
            entry.name = name ∧ entry.type = type) ∧
        ∀ {V : Type} (meaning : Interpretation V) (values : Constant → V),
          (∀ handle constant, compilation.environment.constants.lookup? handle = some constant →
            meaning.literal handle = values constant) →
          ∀ store, ∃ count final,
            Machine.run meaning compilation.code count ⟨0, store, []⟩ = .halted final ∧
            final (declared.handle target) =
              value.eval meaning.apply (fun name => store (declared.handle name)) values ∧
            ∀ name type, (name, type) ∈ declared.entries → name ≠ target →
              final (declared.handle name) = store (declared.handle name) := by
  obtain ⟨other, isStandard, faithful⟩ := standard_faithful
  cases standard.symm.trans isStandard
  refine ⟨⟨_, words_spell (isSpelled_assignment known typed)⟩, fun text spelled => ?_⟩
  obtain ⟨tree, environment, expression, parsed, read, resolves, entries⟩ :=
    parse_assignment faithful known typed spelled
  have inside : (assignmentProgram declared target expression).ScopedIn environment := by
    rcases parse_cases faithful text with ⟨error, failed⟩ | ⟨_, _, program, again, isRead, within⟩
    · cases parsed.symm.trans failed
    · cases parsed.symm.trans again
      cases read.symm.trans isRead
      exact within
  obtain ⟨code, supply, instructions, source, first, last, generated, grown, rfl, scope, computes⟩ :=
    generate_assignment known typed read inside resolves entries
  have compiled := compile_of_ok parsed
  rw [generated] at compiled
  -- The temporaries come behind the variables, which keep their entries.
  refine ⟨_, instructions, source, compiled, rfl, ?_, ?_, ?_⟩
  · rw [computes.operations, resolves.operations_eq]
  · exact fun name type listed => ⟨_, grown.lookup? (lookup?_declared entries listed), rfl, rfl⟩
  · intro V meaning values literals store
    obtain ⟨count, final, halts, found, kept⟩ := @Computes.assigns V _ _ _ _ _ _ _
      (declared.handle target) computes (fun handle own => grown.lasting own) meaning store
    refine ⟨count, final, halts, found.trans (resolves.eval_eq literals store), ?_⟩
    intro name kind listed different
    have entry := lookup?_declared entries listed
    have own : environment.symbols.Owned 1 (declared.handle name) := ⟨_, entry, by decide, rfl, rfl⟩
    -- Variables with one handle have one entry, and so one name.
    refine kept _ (fun same => different ?_) (grown.lasting own)
    rw [same, lookup?_declared entries known] at entry
    cases entry
    rfl

/-- A number and a truth value. -/
def mixedDeclarations : Declarations where
  entries := [("#x", .int), ("#b", .boolean)]
  spelled := by decide
  typed := by decide
  distinct := by decide

def digitLiteral (digit : Fin 10) : Written :=
  .literal (.number (Text.ofNat digit)) ⟨Text.ofNat digit, .int digit⟩
    (by revert digit; decide) (by revert digit; decide)

/-- An expression with operations of all levels, a pair of parentheses that it needs and one that it does not. -/
def mixedValue : Written := .binary .or
    (.binary .less
      (.binary .add (digitLiteral 1) (.binary .mul (digitLiteral 2) (.name "#x")))
      (.binary .sub (.binary .sub (.binary .mul (.name "#x") (digitLiteral 4)) (digitLiteral 2))
        (.group (digitLiteral 1))))
    (.binary .and (.binary .equal (.name "#x") (digitLiteral 2))
      (.literal (.truth false) ⟨"false", .boolean false⟩ trivial (by decide)))

/-- An assignment of the expression. -/
def mixedText : Text := ("start var int #x; var boolean #b;\n" : Text) ++
    "#b = 1+2*#x < #x*4-2-(1) || (#x == 2 && false); end"

theorem mixedValue_hasType : mixedValue.HasType mixedDeclarations .boolean := by
  have isNumber : Written.HasType mixedDeclarations (.name "#x") .int := .name (by decide)
  refine .binary (.binary (.binary .literal (.binary .literal isNumber (.arithmetic ?_ ?_))
    (.arithmetic ?_ ?_)) (.binary (.binary (.binary isNumber .literal (.arithmetic ?_ ?_)) .literal
    (.arithmetic ?_ ?_)) (.group .literal) (.arithmetic ?_ ?_)) (.comparison ?_))
    (.binary (.binary isNumber .literal (.comparison ?_)) .literal (.logical ?_)) (.logical ?_)
  all_goals decide

/-- Integers, of which all but zero are true. -/
def mixedApply (operation : BinaryOperation) (left right : Int) : Int :=
  match operation with
  | .add => left + right
  | .sub => left - right
  | .mul => left * right
  | .less => if left < right then 1 else 0
  | .equal => if left = right then 1 else 0
  | .and => left * right
  | .or => max left right
  | _ => 0

/-- The integer of a constant. -/
def mixedConstant (constant : Constant) : Int :=
  match constant.value with
  | .int value => value
  | .boolean value => if value then 1 else 0
  | _ => 0

/-- The text compiles to nine operations and a move, and they leave the value of the expression. -/
theorem compile_respects_mixed_levels : ∃ compiler compilation instructions source,
    Compiler.standard = .ok compiler ∧ compiler.compile mixedText = .ok compilation ∧
      compilation.code = instructions ++ [.move 1 source] ∧
      instructions.map Instruction.operation? = ([.mul, .add, .mul, .sub, .sub, .less, .equal, .and,
        .or] : List BinaryOperation).map some ∧
      ∃ (meaning : Interpretation Int) (count : Nat) (final : Store Int),
        meaning.apply = mixedApply ∧ Machine.run meaning compilation.code count
          ⟨0, fun handle => if handle = 0 then 2 else 7, []⟩ = .halted final ∧
        final 1 = 0 ∧ final 0 = 2 := by
  obtain ⟨compiler, standard, -⟩ := standard_faithful
  have known : (("#b" : Text), ValueType.boolean) ∈ mixedDeclarations.entries := by decide
  have spelled : words mixedText = assignmentWords mixedDeclarations "#b" mixedValue := by
    decide +kernel
  obtain ⟨-, compiles⟩ :=
    compile_respects_precedence standard mixedDeclarations known mixedValue_hasType
  obtain ⟨compilation, instructions, source, compiled, code, operations, -, executes⟩ :=
    compiles mixedText spelled
  let meaning : Interpretation Int :=
    { apply := mixedApply
      literal := fun handle =>
        (compilation.environment.constants.lookup? handle).elim 0 mixedConstant
      holds := fun value => value != 0 }
  obtain ⟨count, final, halts, found, kept⟩ := executes meaning mixedConstant
    (fun handle constant looked => by simp [meaning, looked])
    (fun handle => if handle = 0 then 2 else 7)
  refine ⟨compiler, compilation, instructions, source, standard, compiled, code, operations,
    meaning, count, final, rfl, halts, ?_, ?_⟩
  · have computed : mixedValue.eval mixedApply
        (fun name => if mixedDeclarations.handle name = 0 then 2 else 7) mixedConstant = 0 := by
      decide
    exact found.trans computed
  · exact kept "#x" .int (by decide) (by decide)

end Compiler

end ThreeAddress

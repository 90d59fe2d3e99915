import ThreeAddress.Proofs.Code.Program
import ThreeAddress.Proofs.Code.ShiftedProgram
import ThreeAddress.Proofs.Language.Resolution

/-!
Compiling with temporaries that were made before.

Whoever makes temporaries first moves the handles of a program and the numbers of its temporaries, and changes nothing else.
-/

namespace ThreeAddress

open ThreeAddress.Language

/-- A compiled program once some temporaries stand in front. -/
structure Compilation.Moved (count : Nat) (first second : Compilation) : Prop where
  code : second.code = first.code.map (Instruction.shift count)
  tree : second.tree = first.tree.shift count
  constants : second.environment.constants = first.environment.constants
  /-- The temporaries of the program are numbered from zero on. -/
  numbered : ∃ types,
    first.environment.symbols.entries.filter Entry.isTemporary = reservedEntries types
  /-- Every temporary is found behind those in front, with a higher number. -/
  temporaries : ∀ handle number type,
    first.environment.symbols.lookup? handle = some (.temporary number type) →
      second.environment.symbols.lookup? (handle + count) = some (.temporary (number + count) type)
  /-- Everything else is found with moved handles. -/
  others : ∀ handle entry, first.environment.symbols.lookup? handle = some entry →
    entry.isTemporary = false →
      second.environment.symbols.lookup? (handle + count) = some (entry.shift count)

namespace Compiler

variable {compiler : Compiler} {text : Text} {halting : Bool}

/-- A text is parsed as before: the tree has the moved handles, and a failure is the same. -/
theorem parseIn_shift (front : List Entry) (environment : Environment) :
    compiler.parseIn (environment.shift front) text halting =
      (compiler.parseIn environment text halting).map
        (Prod.map (SyntaxTree.shift front.length) (Environment.shift front)) := by
  have parsed := Parser.parse_map { table := compiler.table, halting }
    (Token.shift_keeps front.length) (lexFrom environment text).1
  simp only [parseIn, lexFrom_shift, Prod.map, parsed]
  cases Parser.parse _ (lexFrom environment text).1 with
  | error failure => rfl
  | ok tree => rfl

variable {tree : SyntaxTree}

theorem has_of_parse {parser : Parser} (faithful : parser.table.Faithful standardGrammar)
    (parsed : parser.parse (lexFrom .empty text).1 = .ok tree) :
    ∀ token ∈ SyntaxTree.tokens tree, token.category = identifier →
      (lexFrom .empty text).2.table.Has token.handle := by
  obtain ⟨derivation, start, -⟩ := scans_of_parse faithful parsed
  obtain ⟨tokens, traces⟩ := traces_of_parse faithful parsed
  have leads : placeAfter .outside (Role.ofSymbol (SyntaxTree.symbol tree), .plain) =
      some .finished := by
    rw [start, standardGrammar_start]
    decide
  have leaves := actsFrom_tokens derivation .plain
  -- A name that a replay of the tree resolves has the entry that its token refers to.
  obtain ⟨-, -, named⟩ := linked_start.replayed traces (tokens.trans leaves.symm)
    (placeAfter_acts derivation leads)
  intro token member isName
  rw [← leaves] at member
  obtain ⟨leaf, isLeaf, rfl⟩ := List.mem_map.mp member
  obtain ⟨entry, found, -⟩ := named leaf isLeaf isName
  exact Option.isSome_of_mem found

variable {environment : Environment}

theorem parse_names (faithful : compiler.table.Faithful standardGrammar)
    (parsed : compiler.parseIn .empty text halting = .ok (tree, environment)) :
    environment.symbols.Sound ∧ environment.symbols.Closed ∧
      (normalize tree).Every (Names environment.symbols.Has) := by
  obtain ⟨derived, rfl⟩ := parse_eq_ok parsed
  obtain ⟨derivation, start, scans⟩ := scans_of_parse faithful derived
  obtain ⟨_, _, inside⟩ := program_scoped derivation start scans
  obtain ⟨_, _, functionsIn, _⟩ := inside.functions
  refine ⟨inside.sound, ?_, names_normalize derivation start (has_of_parse faithful derived)⟩
  intro handle entry known param member
  obtain ⟨_, isVariable⟩ :=
    Generate.parametersDeclared_of_scoped functionsIn handle entry known param member
  exact Option.isSome_of_mem isVariable

/-- Generation with entries in front fails as before, or gives the code with moved handles. -/
theorem generate_shift (sound : environment.symbols.Sound) (closed : environment.symbols.Closed)
    (named : tree.Every (Names environment.symbols.Has)) (front : List Entry) :
    ∃ supply twin : Supply, supply.Shifts front.length environment.symbols twin ∧
      (generate environment tree).2 = supply.symbols ∧
      generate (environment.shift front) (tree.shift front.length) =
        ((generate environment tree).1.map (Code.shift front.length), twin.symbols) := by
  have mirrors : Generate.Mirrors front.length environment.symbols _ _ _ :=
    Generate.program_mirrors closed environment.constants named
  obtain ⟨shifts, same⟩ := mirrors _ _ (Supply.shifts_start sound front)
  refine ⟨_, _, shifts, rfl, ?_⟩
  rw [← show _ = (generate environment tree).1.map _ from same]
  rfl

/-- Supplies behind the same steps belong to compiled programs one of which has moved handles. -/
theorem moved_of_shifts {front : List Entry} {base : SymbolTable} {supply twin : Supply}
    (shifts : supply.Shifts front.length base twin) (environment : Environment) (tree : SyntaxTree)
    (code : Code) :
    Compilation.Moved front.length
      { environment := { environment with symbols := supply.symbols }, tree, code }
      { environment := { environment.shift front with symbols := twin.symbols }
        tree := tree.shift front.length, code := code.shift front.length } where
  code := rfl
  tree := rfl
  constants := rfl
  numbered := by
    obtain ⟨types, -, filtered⟩ := shifts.drawn
    exact ⟨types, filtered⟩
  temporaries handle number type found := by
    obtain ⟨other, there, counterpart⟩ := shifts.counterpart found
    rw [← counterpart.of_temporary]
    exact there
  others handle entry found lasting := by
    obtain ⟨other, there, counterpart⟩ := shifts.counterpart found
    rw [← counterpart.of_lasting lasting]
    exact there

theorem compileIn_shift (faithful : compiler.table.Faithful standardGrammar) (front : List Entry) :
    (∃ failure, compiler.compile text halting = .error failure ∧
      compiler.compileIn (Environment.empty.shift front) text halting = .error failure) ∨
    ∃ first second, compiler.compile text halting = .ok first ∧
      compiler.compileIn (Environment.empty.shift front) text halting = .ok second ∧
      first.Moved front.length second := by
  have parsedOther := @parseIn_shift compiler text halting front .empty
  simp only [compile, compileIn, parsedOther]
  cases parsed : compiler.parseIn .empty text halting with
  | error failure => exact .inl ⟨failure, rfl, rfl⟩
  | ok result =>
    obtain ⟨tree, environment⟩ := result
    obtain ⟨sound, closed, named⟩ := parse_names faithful parsed
    obtain ⟨supply, twin, shifts, symbols, generated⟩ := generate_shift sound closed named front
    -- The abstract syntax tree is moved with the parse tree.
    have normalized : normalize (tree.shift front.length) = (normalize tree).shift front.length :=
      normalizer.normalize_map (Token.shift front.length) tree
    simp only [Except.map, Prod.map, bind, Except.bind, normalized, generated, symbols]
    cases (generate environment (normalize tree)).1 with
    | error failure => exact .inl ⟨failure, rfl, rfl⟩
    | ok code => exact .inr ⟨_, _, rfl, rfl, moved_of_shifts shifts environment _ code⟩

/--
Temporaries that are made first do not matter to a program.

It fails with the same error, or its code is the same code with moved handles, and its temporaries go on with the numbers of those in front.
-/
theorem compileIn_reserved : ∃ compiler, Compiler.standard = .ok compiler ∧
    ∀ (text : Text) (halting : Bool) (types : List ValueType),
      (∃ failure, compiler.compile text halting = .error failure ∧
        compiler.compileIn { symbols := SymbolTable.empty.reserve types } text halting =
          .error failure) ∨
      ∃ first second, compiler.compile text halting = .ok first ∧
        compiler.compileIn { symbols := SymbolTable.empty.reserve types } text halting =
          .ok second ∧
        first.Moved types.length second := by
  obtain ⟨compiler, standard, faithful⟩ := standard_faithful
  refine ⟨compiler, standard, fun text halting types => ?_⟩
  -- Temporaries that are made in an empty table are its entries in front.
  have behind : { symbols := SymbolTable.empty.reserve types } =
      Environment.empty.shift (reservedEntries types) := by
    rw [SymbolTable.reserve_empty]
    rfl
  rw [behind, ← length_reservedEntries types]
  exact compileIn_shift faithful (reservedEntries types)

end Compiler

end ThreeAddress

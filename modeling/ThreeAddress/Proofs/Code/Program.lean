import ThreeAddress.Proofs.Code.Block

/-!
The code that is generated for programs.

Generation of a program that was read and is well scoped succeeds exactly if the program is well typed.
Its code has the layout of a program, sound operands, and labels that are numbered without gaps.
-/

namespace ThreeAddress

open Source List

namespace Source

theorem kept_of_read {tree : SyntaxTree} {statement : Statement}
    (read : Statement.read? tree = some statement) :
    (!tree.value.symbol.isTerminal && tree.value.symbol != .nonterminal "FUNC") = true := by
  obtain ⟨id, ⟨symbol, token⟩, children⟩ := tree
  cases symbol with
  | terminal name category => simp [Statement.read?, Statement.readSimple?] at read
  | nonterminal name =>
    simp only [Tree.value_node, Symbol.isTerminal, Bool.not_false, Bool.true_and, bne_iff_ne, ne_eq]
    intro isFunction
    cases isFunction
    have notIf : ("FUNC" : Text) ≠ "IF" := by decide
    have notLoop : ("FUNC" : Text) ≠ "LOOP" := by decide
    have notDeclaration : ("FUNC" : Text) ≠ "DECL" := by decide
    have notAssignment : ("FUNC" : Text) ≠ "ASSIGN" := by decide
    have notCall : ("FUNC" : Text) ≠ "CALLSTMT" := by decide
    have notReturn : ("FUNC" : Text) ≠ "RETURN" := by decide
    simp [Statement.read?, Statement.readSimple?, notIf, notLoop, notDeclaration, notAssignment,
      notCall, notReturn] at read

/-- The parts of a program: its functions, the word that opens the main block, and that block. -/
theorem readParts?_some : ∀ {children : List SyntaxTree} {program : Program},
    Program.readParts? children = some program →
      ∃ functions opening rest, children = functions ++ opening :: rest ∧
        List.Forall₂ (fun tree function => Function.read? tree = some function) functions
          program.functions ∧
        (∀ tree ∈ functions, tree.value.symbol = .nonterminal "FUNC") ∧
        opening.value.symbol.hasCategory Language.startWord = true ∧
        Program.readMain? rest = some program.main
  | [], _, read => by simp [Program.readParts?] at read
  | tree :: rest, program, read => by
    simp only [Program.readParts?] at read
    split at read
    · next opens =>
      obtain ⟨main, ofRest, same⟩ := Option.bind_eq_some_iff.mp read
      cases same
      exact ⟨[], tree, rest, rfl, .nil, by simp, opens, ofRest⟩
    · split at read
      · next isFunction =>
        simp only [Option.bind_eq_bind, Option.bind_eq_some_iff] at read
        obtain ⟨function, ofTree, others, ofRest, same⟩ := read
        cases same
        obtain ⟨functions, opening, main, rfl, reads, each, opens, ofMain⟩ := readParts?_some ofRest
        refine ⟨tree :: functions, opening, main, rfl, .cons ofTree reads, ?_, opens, ofMain⟩
        simpa [isFunction] using each
      · cases read

end Source

namespace Generate

variable {base : Environment} {program : Program} {context : Context} {scope : Nat}

theorem filter_functions {functions rest : List SyntaxTree} {opening : SyntaxTree}
    {main : Statement} (each : ∀ tree ∈ functions, tree.value.symbol = .nonterminal "FUNC")
    (opens : opening.value.symbol.hasCategory Language.startWord = true)
    (ofMain : Program.readMain? rest = some main) :
    ((functions ++ opening :: rest).filter fun child =>
      child.value.symbol == .nonterminal "FUNC") = functions := by
  have none : ∀ {rest : List SyntaxTree} {main : Statement}, Program.readMain? rest = some main →
      (rest.filter fun child => child.value.symbol == .nonterminal "FUNC") = [] := by
    intro rest
    induction rest with
    | nil => simp
    | cons tree rest ih =>
      intro main read
      simp only [Program.readMain?] at read
      split at read
      · next closes =>
        have terminal := isTerminal_of_hasCategory closes
        split at read
        · next ends =>
          cases isEmpty_iff.mp ends
          cases symbol : tree.value.symbol <;> simp_all [Symbol.isTerminal]
        · cases read
      · simp only [Option.bind_eq_bind, Option.bind_eq_some_iff] at read
        obtain ⟨first, ofTree, second, ofRest, -⟩ := read
        have kept := kept_of_read ofTree
        rw [filter_cons_of_neg (by simp_all), ih ofRest]
  have terminal := isTerminal_of_hasCategory opens
  rw [filter_append, filter_eq_self.mpr (by simpa using each), filter_cons_of_neg,
    none ofMain, append_nil]
  cases symbol : opening.value.symbol <;> simp_all [Symbol.isTerminal]

theorem mainStatements_eq {functions rest : List SyntaxTree} {opening : SyntaxTree}
    (each : ∀ tree ∈ functions, tree.value.symbol = .nonterminal "FUNC")
    (opens : opening.value.symbol.hasCategory Language.startWord = true) :
    mainStatements (functions ++ opening :: rest) = rest.filter fun tree =>
      !tree.value.symbol.isTerminal && tree.value.symbol != .nonterminal "FUNC" := by
  have terminal := isTerminal_of_hasCategory opens
  have skipped : ∀ tree ∈ functions,
      (!tree.value.symbol.hasCategory Language.startWord) = true := by
    intro tree member
    rw [each tree member]
    rfl
  rw [mainStatements, dropWhile_append_of_pos skipped, dropWhile_cons_of_neg (by simp [opens]),
    filter_cons_of_neg (by simp [terminal])]

/-- The main block is accepted exactly if its statements are. -/
theorem mainBlock_checks (prepared : context.Prepared base program)
    (declared : ParametersDeclared base) :
    ∀ {trees : List SyntaxTree} {main : Statement} {before : Supply},
      Program.readMain? trees = some main → main.ScopedIn base scope → Reached base before →
      Checks base program context scope main (mainBlock context (trees.filter fun tree =>
        !tree.value.symbol.isTerminal && tree.value.symbol != .nonterminal "FUNC")) before
  | [], _, _, read, _, _ => by simp [Program.readMain?] at read
  | tree :: rest, main, before, read, inside, reached => by
    simp only [Program.readMain?] at read
    split at read
    · next closes =>
      split at read
      · next ends =>
        cases read
        cases isEmpty_iff.mp ends
        rw [filter_cons_of_neg (by simp [isTerminal_of_hasCategory closes])]
        exact skip_checks reached
      · cases read
    · simp only [Option.bind_eq_bind, Option.bind_eq_some_iff] at read
      obtain ⟨first, ofTree, second, ofRest, same⟩ := read
      cases same
      rw [filter_cons_of_pos (by exact kept_of_read ofTree)]
      refine Accepts.bind ((tree_checks prepared declared tree).1 ofTree inside.1 reached)
        And.left ?_
      intro code middle one
      refine Accepts.bind (mainBlock_checks prepared declared ofRest inside.2
        (reached.behind one.settles)) And.right ?_
      intro others after two
      exact accepts_pure (Codes.seq one two)

/-- Code of functions in order, each behind its entry label. -/
structure MakesAll (base : Environment) (program : Program) (context : Context) (entry : Nat)
    (scopes : List (Nat × Function)) (before : Supply) (code : Code) (after : Supply) : Prop where
  settles : Settles base.constants before code after
  places : before.Places scopes.length code after
  typed : ∀ function ∈ scopes.map Prod.snd, function.WellTyped base
  coded : ∀ last, after.Grown last → FunctionsCoded program (context.layout last)
    base.symbols.Owned entry before.nextLabel scopes code after.nextLabel

/-- A function is accepted exactly if its body returns values of its type. Its entry label stands in front of the body. -/
theorem function_accepts (prepared : context.Prepared base program)
    (declared : ParametersDeclared base) {tree : SyntaxTree} {function : Function} {entry : Nat}
    {before : Supply} (read : Function.read? tree = some function)
    (inside : function.ScopedIn base scope)
    (labelled : context.entry? function.handle = some entry) (reached : Reached base before) :
    Accepts (Generate.function context tree) before (function.WellTyped base)
      (MakesAll base program context entry [(scope, function)] before) := by
  simp only [Function.read?, Option.bind_eq_bind, Option.bind_eq_some_iff] at read
  obtain ⟨name, third, params, ofParams, body, ofBody, same⟩ := read
  cases same
  obtain ⟨known, found, -⟩ := inside.entry
  refine accepts_child third (accepts_lookup? ?_)
  rw [reached.grown.lookup? found]
  -- The function around a statement only matters for the types of what it returns.
  have within : Context.Prepared { context with function := some known } base program :=
    ⟨prepared.slotless, prepared.constants, prepared.known⟩
  refine Accepts.bind (block_checks (fun child _ => (tree_checks within declared child).1) ofBody
    inside.body reached) ?_ ?_
  · rintro ⟨entry, isEntry, typed⟩
    cases found.symm.trans isEntry
    exact typed
  · intro code after made
    rw [labelled]
    have opened : Settles base.constants before [.label entry] before :=
      .labelled reached.ready (Nat.le_refl _) (by simp [Instruction.Sound]) rfl
    have first : before.Places 1 [.label entry] before := rfl
    refine accepts_pure ⟨opened.append made.settles, first.append made.places, ?_,
      fun last later => ?_⟩
    · simpa using ⟨known, found, made.fits⟩
    · simpa using FunctionsCoded.cons labelled (made.coded last later) .nil

/-- Functions are accepted exactly if each of them is. -/
theorem functions_accepts (prepared : context.Prepared base program)
    (declared : ParametersDeclared base) :
    ∀ {trees : List SyntaxTree} {scopes : List (Nat × Function)} {entry : Nat} {before : Supply},
      List.Forall₂ (fun tree function => Function.read? tree = some function) trees
        (scopes.map Prod.snd) →
      (∀ held ∈ scopes, held.2.ScopedIn base held.1) →
      (∀ index held, scopes[index]? = some held →
        context.entry? held.2.handle = some (entry + index)) →
      Reached base before →
      Accepts (functions context trees) before
        (∀ function ∈ scopes.map Prod.snd, function.WellTyped base)
        (MakesAll base program context entry scopes before)
  | [], [], entry, before, _, _, _, reached =>
    accepts_pure ⟨.nil reached.ready, rfl, by simp, fun _ _ => .nil⟩
  | tree :: trees, (scope, function) :: scopes, entry, before, .cons ofTree reads, each, labelled,
      reached => by
    refine Accepts.bind (function_accepts prepared declared ofTree
      (each (scope, function) (by simp)) (labelled 0 (scope, function) rfl) reached)
      (fun typed => typed function (by simp)) ?_
    intro code middle one
    have onward : ∀ index held, scopes[index]? = some held →
        context.entry? held.2.handle = some (entry + 1 + index) := by
      intro index held found
      rw [labelled (index + 1) held (by simpa using found)]
      congr 1
      omega
    refine Accepts.bind (functions_accepts prepared declared reads
      (forall_mem_cons.mp each).2 onward (reached.behind one.settles))
      (fun typed other member => typed other (by simp [mem_map.mp member])) ?_
    intro others after two
    refine accepts_pure ⟨one.settles.append two.settles, ?_, ?_, fun last later => ?_⟩
    · simpa [Nat.add_comm] using one.places.append two.places
    · simpa using ⟨one.typed function (by simp), by simpa using two.typed⟩
    · cases one.coded last (two.settles.grown.trans later) with
      | cons start head tail =>
        cases tail
        simpa using FunctionsCoded.cons start head (two.coded last later)

/-- Names numbered in order have their numbers, if no name comes twice. -/
theorem lookup_zipIdx : ∀ {handles : List Handle}, handles.Nodup → ∀ {first index : Nat}
    {handle : Handle}, handles[index]? = some handle →
    (handles.zipIdx first).reverse.lookup handle = some (first + index)
  | [], _, _, _, _, found => by cases found
  | head :: rest, distinct, first, 0, handle, found => by
    cases found
    have absent : (rest.zipIdx (first + 1)).reverse.lookup head = none := by
      rw [lookup_eq_none_iff]
      rintro ⟨other, number⟩ member
      have inRest := fst_mem_of_mem_zipIdx (mem_reverse.mp member)
      simp only [bne_iff_ne, ne_eq]
      rintro rfl
      exact (nodup_cons.mp distinct).1 inRest
    simp [zipIdx_cons, lookup_append, absent]
  | head :: rest, distinct, first, index + 1, handle, found => by
    have later := @lookup_zipIdx rest (nodup_cons.mp distinct).2 (first + 1) index handle
      (by simpa using found)
    rw [zipIdx_cons, reverse_cons, lookup_append, later]
    simp only [Option.some_or, Option.some.injEq]
    omega

variable {scopes : List (Nat × Function)}

theorem function?_of_mem {held : Nat × Function} (same : scopes.map Prod.snd = program.functions)
    (distinct : (scopes.map fun held => held.2.handle).Nodup) (member : held ∈ scopes) :
    program.function? held.2.handle = some held.2 := by
  have nodup : (program.functions.map Function.handle).Nodup := by
    rw [← same, map_map]
    exact distinct
  have inside : held.2 ∈ program.functions := same ▸ mem_map_of_mem member
  rw [Program.function?]
  cases found : program.functions.find? fun function => function.handle == held.2.handle with
  | none =>
    have missing := find?_eq_none.mp found held.2 inside
    simp at missing
  | some function =>
    have agrees : function.handle = held.2.handle := by simpa using find?_some found
    rw [inj_on_of_nodup_map nodup (mem_of_find?_eq_some found) inside agrees]

theorem newEntry_run {trees : List SyntaxTree} {functions : List Function} {before : Supply}
    (reads : List.Forall₂ (fun tree function => Function.read? tree = some function)
      trees functions) :
    (trees.mapM newEntry).run before =
      (.ok ((functions.map Function.handle).zipIdx before.nextLabel),
        { before with nextLabel := before.nextLabel + functions.length }) := by
  induction reads generalizing before with
  | nil => rfl
  | @cons tree function _ functions ofTree reads ih =>
    simp only [Function.read?, Option.bind_eq_bind, Option.bind_eq_some_iff] at ofTree
    obtain ⟨name, third, params, -, body, -, same⟩ := ofTree
    cases same
    have first : (newEntry tree).run before = (.ok (name.value.handle, before.nextLabel),
        { before with nextLabel := before.nextLabel + 1 }) := by
      simp only [newEntry, child, third]
      rfl
    rw [mapM_cons, Steps.run_bind, first]
    simp only [Steps.run_bind, ih, length_cons]
    rw [Nat.add_right_comm, Nat.add_assoc]
    rfl

theorem entry?_of_functions (functionsIn : FunctionsIn base scopes) (index : Nat)
    (held : Nat × Function) (found : scopes[index]? = some held) :
    Context.entry? { constants := base.constants
                     entries := ((scopes.map Prod.snd).map Function.handle).zipIdx 1 }
      held.2.handle = some (1 + index) := by
  refine lookup_zipIdx ?_ (by simp [found])
  rw [map_map]
  exact functionsIn.handles

theorem prepared_of_entries (sound : base.symbols.Sound)
    (same : scopes.map Prod.snd = program.functions) (functionsIn : FunctionsIn base scopes)
    (labelled : ∀ index held, scopes[index]? = some held →
      context.entry? held.2.handle = some (1 + index))
    (constants : context.constants = base.constants) : context.Prepared base program where
  slotless := sound.slotless
  constants := constants
  known {handle entry} found := by
    obtain ⟨held, member, rfl⟩ := functionsIn.covered found
    obtain ⟨known, sameEntry, params⟩ := (functionsIn.each held member).entry
    cases found.symm.trans sameEntry
    obtain ⟨index, isAt⟩ := mem_iff_getElem?.mp member
    exact ⟨held.2, 1 + index, function?_of_mem same functionsIn.handles member, params.symm,
      labelled index held isAt⟩

theorem parametersDeclared_of_scoped (functionsIn : FunctionsIn base scopes) : ParametersDeclared base := by
  intro handle entry found param member
  obtain ⟨held, isHeld, rfl⟩ := functionsIn.covered found
  obtain ⟨known, sameEntry, params⟩ := (functionsIn.each held isHeld).entry
  cases found.symm.trans sameEntry
  obtain ⟨variableEntry, isVariable, -⟩ := (functionsIn.each held isHeld).owned param (params ▸ member)
  exact ⟨variableEntry, isVariable⟩

/--
What is made for a program: sound code with the layout of a program.

Its labels go from zero up to the next one to be drawn, and its temporaries are the results of its operations.
-/
structure Compiles (base : Environment) (program : Program) (code : Code) (after : Supply) :
    Prop where
  grown : (start base).Grown after
  sound : ∀ instruction ∈ code, instruction.Sound (after.tables base.constants)
  labels : code.labels.Perm (List.range after.nextLabel)
  drawn : after.symbols.drawn = code.results
  typed : program.WellTyped base
  coded : ∃ context scopes scope, scopes.map Prod.snd = program.functions ∧
    FunctionsIn base scopes ∧ scope ∉ scopes.map Prod.fst ∧
    ProgramCoded program (Context.layout context after) base.symbols.Owned scope scopes code

/-- Labels that are below a number, each once and as many as there are, are all of those. -/
theorem perm_range_of_count {labels : List Nat} {count : Nat} (once : labels.Nodup)
    (below : ∀ label ∈ labels, label < count) (all : count = labels.length) :
    labels.Perm (List.range count) := by
  refine (once.subperm fun label member => mem_range.mpr (below label member)).perm_of_length_le ?_
  rw [length_range, all]

/-- A well-scoped program that was read is accepted exactly if it is well typed. -/
theorem program_accepts {tree : SyntaxTree} (read : Program.read? tree = some program)
    (inside : program.ScopedIn base) :
    Accepts (Generate.program base.constants tree) (start base) (program.WellTyped base)
      (Compiles base program) := by
  obtain ⟨sound, scopes, same, functionsIn, scope, apart, main⟩ := inside
  have declared := parametersDeclared_of_scoped functionsIn
  have slotless := sound.slotless
  have reached : Reached base (start base) :=
    ⟨slotless, .refl _, declared, fun handle found => by cases slotless.symm.trans found⟩
  have unused : base.symbols.drawn = [] := sound.drawn_eq_nil
  rw [Program.read?] at read
  split at read
  case isFalse => cases read
  case isTrue isProgram =>
    obtain ⟨trees, opening, rest, children, reads, each, opens, ofMain⟩ := readParts?_some read
    simp only [Generate.program, isProgram, ne_eq, not_true_eq_false, if_false, children]
    rw [filter_functions each opens ofMain, mainStatements_eq each opens]
    rw [← same] at reads
    by_cases plain : scopes = []
    · subst plain
      cases reads
      have prepared : Context.Prepared { constants := base.constants } base program :=
        prepared_of_entries sound same functionsIn (by simp) rfl
      have noFunctions : ∀ function ∈ program.functions, function.WellTyped base := by
        simp [← same]
      refine Accepts.mono (mainBlock_checks prepared declared ofMain main reached)
        Program.WellTyped.main ?_
      intro code after made
      have coded := made.coded after (.refl after)
      obtain ⟨-, once, below, -⟩ := coded.labels (by simp)
      have labels := perm_range_of_count once (fun label member => (below label member).2)
        (made.places.trans (Nat.zero_add _))
      exact ⟨made.settles.grown, made.settles.sound, labels,
        made.settles.drawn.trans (by rw [unused, nil_append]), ⟨noFunctions, made.fits⟩, _, [],
        scope, same, functionsIn, apart, .plain coded⟩
    · have filled : ¬ trees.isEmpty = true := by
        intro empty
        cases isEmpty_iff.mp empty
        exact plain (map_eq_nil_iff.mp (forall₂_nil_left_iff.mp reads))
      rw [if_neg filled]
      refine accepts_newLabel ?_
      rw [Accepts, Steps.run_bind, newEntry_run reads]
      simp only [Nat.zero_add, length_map]
      have drawn : Settles base.constants (start base) [.goto 0]
          { start base with nextLabel := 1 + scopes.length } :=
        .labelled reached.ready (Nat.zero_le _) (by simp [Instruction.Sound]) rfl
      have labelled := entry?_of_functions functionsIn
      have prepared := prepared_of_entries sound same functionsIn labelled rfl
      refine Accepts.bind (functions_accepts prepared declared reads functionsIn.each labelled
        (reached.behind drawn)) (fun typed => same ▸ typed.functions) ?_
      intro code middle made
      have jumped := drawn.append made.settles
      refine Accepts.bind (mainBlock_checks prepared declared ofMain main (reached.behind jumped))
        Program.WellTyped.main ?_
      intro block after ofBlock
      have together := (jumped.with [.label 0] (by simp [Instruction.Sound]) rfl).append
        ofBlock.settles
      have isCode : .goto 0 :: code ++ .label 0 :: block =
          [.goto 0] ++ code ++ [.label 0] ++ block := by simp
      have functions := made.coded after ofBlock.settles.grown
      have ofMain := ofBlock.coded after (.refl after)
      obtain ⟨once, below⟩ := functions.labels_main ofMain
      refine accepts_pure ⟨together.grown, isCode ▸ together.sound, perm_range_of_count once below ?_,
        together.drawn.trans (by rw [unused, isCode, nil_append]), ⟨same ▸ made.typed, ofBlock.fits⟩,
        _, scopes, scope, same, functionsIn, apart, .behind functions ofMain plain⟩
      -- The label of the main block is drawn first and placed behind the functions.
      have inFunctions := made.places
      have inMain := ofBlock.places
      simp only [Supply.Places, cons_append, Code.labels_goto, Code.labels_append,
        Code.labels_label, length_append, length_cons] at *
      omega

theorem program_places {tree : SyntaxTree} (read : Program.read? tree = some program)
    (inside : program.ScopedIn base) :
    Steps.Ensures (Generate.program base.constants tree) (start base) fun code after =>
      code.labels.Perm (List.range after.nextLabel) :=
  (program_accepts read inside).ensures.mono fun _ _ made => made.labels

end Generate

end ThreeAddress

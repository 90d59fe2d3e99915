import ThreeAddress.Proofs.Code.Shift

/-!
Programs with entries in front of the symbol table.

Statement by statement, the code of a program is the same code with moved handles, or the same failure.
-/

namespace ThreeAddress

open ThreeAddress.Language List

namespace Generate

variable {count : Nat} {base : SymbolTable} {context : Context}

/-- The code of the second generator is that of the first with moved handles. -/
abbrev CodeMirrors (count : Nat) (base : SymbolTable) : Generate Code → Generate Code → Prop :=
  Mirrors count base (Code.shift count)

/-! Statements that hold no others. -/

variable {tree source : SyntaxTree} {trees : List SyntaxTree}

theorem target_mirrors (named : Names base.Has tree)
    (isName : tree.value.symbol.category? = some identifier) :
    Mirrors count base (Prod.map (· + (count : Int)) id) (target tree)
      (target (tree.shift count)) := by
  obtain ⟨has, moved⟩ := handle_of_name named isName count
  simp only [target, Tree.value_map, moved, Label.text_shift]
  refine mirrors_lookup? has fun entry known => ?_
  cases entry with
  | var entry => exact mirrors_pure rfl
  | func entry => exact mirrors_throw _

variable {place : SyntaxTree}

theorem assign_mirrors (named : Names base.Has place)
    (isName : place.value.symbol.category? = some identifier)
    (inside : source.Every (Names base.Has)) :
    CodeMirrors count base (assign context place source)
      (assign (context.shift count) (place.shift count) (source.shift count)) := by
  refine (target_mirrors named isName).bind fun held => ?_
  refine (expression_mirrors inside).bind fun result => ?_
  refine mirrors_ite (fun _ => mirrors_pure ?_) fun _ => mirrors_throw _
  simp [Instruction.shift, Typed.shift]

/-- What follows a callee may use that it was declared. -/
theorem callee_mirrors (named : Names base.Has tree)
    (isName : tree.value.symbol.category? = some identifier) {γ δ : Type} {onto : γ → δ}
    {next : Handle × FunctionEntry → Generate γ} {further : Handle × FunctionEntry → Generate δ}
    (two : ∀ handle function, base.lookup? handle = some (.func function) →
      Mirrors count base onto (next (handle, function))
        (further (handle + (count : Int), function.shift count))) :
    Mirrors count base onto (callee tree >>= next) (callee (tree.shift count) >>= further) := by
  obtain ⟨has, moved⟩ := handle_of_name named isName count
  simp only [callee, Tree.value_map, moved, Label.text_shift, bind_assoc]
  refine mirrors_lookup? has fun entry known => ?_
  cases entry with
  | var entry => exact mirrors_throw _
  | func entry => exact two _ entry known

theorem isFunctionName_mirrors (named : Names base.Has tree) :
    Mirrors count base id (isFunctionName tree) (isFunctionName (tree.shift count)) := by
  simp only [isFunctionName, Tree.value_map, Label.symbol_map]
  refine mirrors_ite (fun isName => ?_) fun _ => mirrors_pure rfl
  obtain ⟨has, moved⟩ := handle_of_name named (beq_iff_eq.mp isName) count
  rw [moved]
  refine mirrors_lookup? has fun entry known => ?_
  cases entry with
  | var entry => exact mirrors_pure rfl
  | func entry => exact mirrors_pure rfl

theorem arguments_mirrors (named : ∀ tree ∈ trees, tree.Every (Names base.Has)) :
    Mirrors count base
      (Prod.map (Code.shift count) (List.map (Prod.map id (Option.map (Value.shift count)))))
      (arguments context trees)
      (arguments (context.shift count) (trees.map (SyntaxTree.shift count))) := by
  induction trees with
  | nil => exact mirrors_pure rfl
  | cons tree rest ih =>
    have onward := ih (forall_mem_cons.mp named).2
    have here := named tree mem_cons_self
    simp only [map_cons, arguments, Tree.value_map, Label.symbol_map]
    refine mirrors_ite (fun _ => onward) fun _ => ?_
    refine (isFunctionName_mirrors here.root).bind fun isFunction => ?_
    refine mirrors_ite (fun _ => ?_) fun _ => ?_
    · exact onward.bind fun others => mirrors_pure rfl
    · refine (expression_mirrors here).bind fun result => ?_
      refine onward.bind fun others => mirrors_pure ?_
      simp [Typed.shift]

theorem bindParameters_shift (count : Nat) : ∀ (params : List Handle) (values : List (Option Value)),
    bindParameters (params.map (· + (count : Int))) (values.map (Option.map (Value.shift count))) =
      (bindParameters params values).shift count
  | param :: params, some value :: values => by
    have rest := bindParameters_shift count params values
    simp [bindParameters, rest, Code.shift, Instruction.shift]
  | [], _ => rfl
  | _ :: _, [] => rfl
  | _ :: _, none :: _ => rfl

theorem call_mirrors (closed : base.Closed) (named : tree.Every (Names base.Has))
    (isCall : tree.value.symbol = .nonterminal "CALL") :
    Mirrors count base (Prod.map (Code.shift count) (FunctionEntry.shift count))
      (call context tree) (call (context.shift count) (tree.shift count)) := by
  simp only [call]
  refine mirrors_child fun name found => ?_
  -- The grammar puts the name of the callee behind the opening word.
  have isName := named.root.placed ("CALL", 1) (by decide) isCall name found
  refine callee_mirrors (named.child (mem_of_getElem? found)).root isName
    fun handle function known => ?_
  simp only [Tree.children_map, length_map]
  refine mirrors_ite (fun _ => mirrors_throw _) fun _ => ?_
  rw [← map_drop, ← map_dropLast]
  refine (arguments_mirrors fun child member => named.child
    (drop_subset _ _ (dropLast_subset _ member))).bind fun args => ?_
  refine mirrors_get fun supply twin shifts => ?_
  -- The parameters were declared with the function, so that their types are the same.
  have params := closed _ function known
  have types : (args.2.map (Prod.map id (Option.map (Value.shift count)))).map Prod.fst =
      args.2.map Prod.fst := by
    simp [Function.comp_def]
  have values : (args.2.map (Prod.map id (Option.map (Value.shift count)))).map Prod.snd =
      (args.2.map Prod.snd).map (Option.map (Value.shift count)) := by
    simp [Function.comp_def]
  simp only [Prod.map, types, values, shifts.checkCall params, context.entry?_shift]
  split
  · exact mirrors_throw _
  · split
    · exact mirrors_throw _
    · refine mirrors_pure ?_
      simp only [FunctionEntry.shift, bindParameters_shift, Prod.map, Code.shift, map_append]
      rfl

theorem assignCall_mirrors (closed : base.Closed) (named : Names base.Has place)
    (isName : place.value.symbol.category? = some identifier)
    (inside : source.Every (Names base.Has)) (isCall : source.value.symbol = .nonterminal "CALL") :
    CodeMirrors count base (assignCall context place source)
      (assignCall (context.shift count) (place.shift count) (source.shift count)) := by
  refine (target_mirrors named isName).bind fun held => ?_
  refine (call_mirrors closed inside isCall).bind fun called => ?_
  refine mirrors_ite (fun _ => ?_) fun _ => mirrors_throw _
  refine mirrors_returnSlot.bind fun slot => mirrors_pure ?_
  simp [Instruction.shift, Value.shift]

theorem ret_mirrors (inside : source.Every (Names base.Has)) :
    CodeMirrors count base (ret context source)
      (ret (context.shift count) (source.shift count)) := by
  refine (expression_mirrors inside).bind fun result => ?_
  -- A function keeps its name and the type of its results.
  have want : (context.shift count).function.elim ValueType.int FunctionEntry.returns =
      context.function.elim .int FunctionEntry.returns := by
    simp only [Context.shift]
    cases context.function <;> rfl
  have place : (context.shift count).function.elim mainScope FunctionEntry.name =
      context.function.elim mainScope FunctionEntry.name := by
    simp only [Context.shift]
    cases context.function <;> rfl
  simp only [want, place, Prod.map, Typed.shift]
  refine mirrors_ite (fun _ => ?_) fun _ => mirrors_throw _
  refine mirrors_returnSlot.bind fun slot => mirrors_pure ?_
  simp [Instruction.shift]

theorem simpleStatement_mirrors (closed : base.Closed) (named : tree.Every (Names base.Has)) :
    CodeMirrors count base (simpleStatement context tree)
      (simpleStatement (context.shift count) (tree.shift count)) := by
  have placed := named.root.placed
  have calls := named.root.calls
  have within : ∀ {index : Nat} {child : SyntaxTree}, tree.children[index]? = some child →
      child.Every (Names base.Has) := fun found => named.child (mem_of_getElem? found)
  simp only [simpleStatement, Tree.value_map, Label.symbol_map, Label.text_shift,
    Tree.children_map, length_map]
  cases symbol : tree.value.symbol with
  | terminal name category => exact mirrors_throw _
  | nonterminal name =>
    rw [symbol] at placed calls
    dsimp only
    refine mirrors_ite ?_ fun _ => mirrors_ite ?_ fun _ => mirrors_ite ?_ fun _ =>
      mirrors_ite ?_ fun _ => mirrors_throw _
    · rintro rfl
      refine mirrors_ite (fun _ => ?_) fun _ => mirrors_pure rfl
      refine mirrors_child fun place isPlace => mirrors_child fun source isSource => ?_
      exact assign_mirrors (within isPlace).root
        (placed ("DECL", 2) (by decide) rfl place isPlace) (within isSource)
    · rintro rfl
      refine mirrors_child fun place isPlace => mirrors_child fun source isSource => ?_
      -- Whether a call is assigned shows in the symbol, and only then is its first name looked up.
      have isName := placed ("ASSIGN", 0) (by decide) rfl place isPlace
      rw [Tree.value_map, Label.symbol_map]
      refine mirrors_ite (fun isCall => ?_) fun _ => ?_
      · exact assignCall_mirrors closed (within isPlace).root isName (within isSource) isCall
      · exact assign_mirrors (within isPlace).root isName (within isSource)
    · rintro rfl
      refine mirrors_child fun source isSource => ?_
      exact (call_mirrors closed (within isSource) (calls rfl source isSource)).bind
        fun called => mirrors_pure rfl
    · rintro rfl
      exact mirrors_child fun source isSource => ret_mirrors (within isSource)

/-! Conditionals and loops. -/

theorem branchCount_shift (count : Nat) (tree : SyntaxTree) :
    branchCount (tree.shift count) = branchCount tree := by
  induction tree using Tree.induct with
  | node id label children ih =>
    rw [SyntaxTree.shift, Tree.map_node, branchCount, branchCount]
    induction children with
    | nil => rfl
    | cons first rest onward =>
      cases rest with
      | nil =>
        simp only [map_cons, map_nil, lastBranchCount, isBranch, Tree.value_map, Label.symbol_map]
        rw [show branchCount (Tree.map _ first) = _ from ih first mem_cons_self]
        rfl
      | cons second others =>
        simp only [map_cons, lastBranchCount]
        exact onward (forall_mem_cons.mp ih).2

theorem Mirrors.andThen {first second other further : Generate Code}
    (one : CodeMirrors count base first other)
    (two : CodeMirrors count base second further) :
    CodeMirrors count base (do let code ← first; return code ++ (← second))
      (do let code ← other; return code ++ (← further)) :=
  one.bind fun _ => two.bind fun _ => mirrors_pure (map_append ..).symm

variable {mark stop : Nat} {body bodyOther : Generate Code}

theorem branchCode_mirrors (named : tree.Every (Names base.Has))
    {others othersOther : Generate Code} (ofBody : CodeMirrors count base body bodyOther)
    (ofOthers : CodeMirrors count base others othersOther) :
    CodeMirrors count base (branchCode context mark stop tree body others)
      (branchCode (context.shift count) mark stop (tree.shift count) bodyOther
        othersOther) := by
  refine mirrors_child fun word _ => ?_
  rw [Tree.value_map, Label.symbol_map]
  refine mirrors_ite (fun _ => ?_) fun _ => ?_
  · refine ofBody.bind fun code => ofOthers.bind fun more => mirrors_pure ?_
    simp [Instruction.shift]
  · refine mirrors_child fun test isTest => ?_
    refine (condition_mirrors (named.child (mem_of_getElem? isTest)) _).bind fun tested => ?_
    refine ofBody.bind fun code => ofOthers.bind fun more => mirrors_pure ?_
    simp [Instruction.shift]

theorem loopCode_mirrors (named : tree.Every (Names base.Has))
    (ofBody : CodeMirrors count base body bodyOther) :
    CodeMirrors count base (loopCode context tree body)
      (loopCode (context.shift count) (tree.shift count) bodyOther) := by
  refine mirrors_newLabel.bind fun head => mirrors_child fun test isTest => ?_
  refine (condition_mirrors (named.child (mem_of_getElem? isTest)) _).bind fun tested => ?_
  refine mirrors_newLabel.bind fun exit => ofBody.bind fun code => mirrors_pure ?_
  simp [Instruction.shift]

/-- A statement whose code in the other run is the same code with moved handles. -/
abbrev StatementMirrors (count : Nat) (base : SymbolTable) (context : Context)
    (tree : SyntaxTree) : Prop :=
  Mirrors count base (Code.shift count) (statement context tree)
    (statement (context.shift count) (tree.shift count))

section

variable (each : ∀ tree ∈ trees, StatementMirrors count base context tree)
include each

theorem statements_mirrors :
    CodeMirrors count base (statements context trees)
      (statements (context.shift count) (trees.map (SyntaxTree.shift count))) := by
  induction trees with
  | nil => exact mirrors_pure rfl
  | cons tree rest ih =>
    simp only [map_cons, statements, Tree.value_map, Label.symbol_map]
    refine mirrors_ite (fun _ => mirrors_pure rfl) fun _ => ?_
    exact (each tree mem_cons_self).andThen
      (ih (forall_mem_cons.mp each).2)

theorem block_mirrors :
    CodeMirrors count base (block context trees)
      (block (context.shift count) (trees.map (SyntaxTree.shift count))) := by
  induction trees with
  | nil => exact mirrors_pure rfl
  | cons tree rest ih =>
    have onward := (forall_mem_cons.mp each).2
    simp only [map_cons, block, Tree.value_map, Label.symbol_map]
    exact mirrors_ite (fun _ => statements_mirrors onward) fun _ => ih onward

end

theorem nextBranch_mirrors (each : ∀ tree ∈ trees, CodeMirrors count base
      (branch context mark stop tree)
      (branch (context.shift count) mark stop (SyntaxTree.shift count tree))) :
    CodeMirrors count base (nextBranch context mark stop trees)
      (nextBranch (context.shift count) mark stop (trees.map (SyntaxTree.shift count))) := by
  induction trees with
  | nil => exact mirrors_pure rfl
  | cons tree rest ih =>
    cases rest with
    | nil =>
      simp only [map_cons, map_nil, nextBranch, isBranch, Tree.value_map, Label.symbol_map]
      exact mirrors_ite (fun _ => each tree mem_cons_self) fun _ => mirrors_pure rfl
    | cons second others =>
      simp only [map_cons, nextBranch]
      exact ih (forall_mem_cons.mp each).2

theorem tree_mirrors (closed : base.Closed) (named : tree.Every (Names base.Has)) :
    StatementMirrors count base context tree ∧
      ∀ mark stop, CodeMirrors count base (branch context mark stop tree)
        (branch (context.shift count) mark stop (SyntaxTree.shift count tree)) := by
  induction tree using Tree.induct with
  | node id label children ih =>
    have below := (Tree.every_node.mp named).2
    have ofBlock : CodeMirrors count base (block context children) _ :=
      block_mirrors fun child member => (ih child member (below child member)).1
    have ofBranch : ∀ mark stop, CodeMirrors count base
        (branchCode context mark stop (.node id label children) (block context children)
          (nextBranch context (mark + 1) stop children)) _ := fun mark stop =>
      branchCode_mirrors named ofBlock (nextBranch_mirrors fun child member =>
        (ih child member (below child member)).2 (mark + 1) stop)
    have counted := branchCount_shift count (.node id label children)
    simp only [SyntaxTree.shift, Tree.map_node] at ofBranch counted
    simp only [StatementMirrors, SyntaxTree.shift, Tree.map_node]
    refine ⟨?_, fun mark stop => ?_⟩
    · simp only [statement, Label.symbol_map, counted]
      refine mirrors_ite (fun _ => ?_) fun _ => mirrors_ite (fun _ => ?_) fun _ => ?_
      · -- Both runs draw the labels of all branches before the first of them.
        cases branchCount (.node id label children) with
        | error cause => exact mirrors_throw _
        | ok number => exact (mirrors_newLabels number).bind fun first => ofBranch _ _
      · have loop : CodeMirrors count base
            (loopCode context (.node id label children) _) _ := loopCode_mirrors named ofBlock
        rwa [SyntaxTree.shift, Tree.map_node] at loop
      · have simple : CodeMirrors count base
            (simpleStatement context (.node id label children)) _ :=
          simpleStatement_mirrors closed named
        rwa [SyntaxTree.shift, Tree.map_node] at simple
    · simp only [branch]
      exact ofBranch mark stop

/-! Programs. -/

theorem mainBlock_mirrors (closed : base.Closed)
    (named : ∀ tree ∈ trees, tree.Every (Names base.Has)) :
    CodeMirrors count base (mainBlock context trees)
      (mainBlock (context.shift count) (trees.map (SyntaxTree.shift count))) := by
  induction trees with
  | nil => exact mirrors_pure rfl
  | cons tree rest ih =>
    exact (tree_mirrors closed (named tree mem_cons_self)).1.andThen
      (ih (forall_mem_cons.mp named).2)

theorem mainStatements_shift (count : Nat) (trees : List SyntaxTree) :
    mainStatements (trees.map (SyntaxTree.shift count)) =
      (mainStatements trees).map (SyntaxTree.shift count) := by
  simp only [mainStatements, dropWhile_map, filter_map, Function.comp_def,
    Tree.value_map, Label.symbol_map]

/-- A node of a function, which holds its name. -/
def IsFunctionNode (base : SymbolTable) (tree : SyntaxTree) : Prop :=
  tree.value.symbol = .nonterminal "FUNC" ∧ tree.Every (Names base.Has)

theorem IsFunctionNode.name {child : SyntaxTree} (node : IsFunctionNode base tree)
    (found : tree.children[2]? = some child) (count : Nat) :
    base.Has child.value.handle ∧
      (child.value.map (Token.shift count)).handle = child.value.handle + (count : Int) := by
  have isName := node.2.root.placed ("FUNC", 2) (by decide) node.1 child found
  exact handle_of_name (node.2.child (mem_of_getElem? found)).root isName count

theorem function_mirrors (closed : base.Closed) (node : IsFunctionNode base tree) :
    CodeMirrors count base (function context tree)
      (function (context.shift count) (tree.shift count)) := by
  refine mirrors_child fun name found => ?_
  obtain ⟨has, moved⟩ := node.name found count
  simp only [Tree.value_map, moved, context.entry?_shift, Label.text_shift, Tree.children_map]
  refine mirrors_lookup? has fun entry known => ?_
  cases entry with
  | var entry => exact mirrors_throw _
  | func entry =>
    -- The body is made with the function in the context, moved like everything else there.
    have body : CodeMirrors count base
        (block { context with function := some entry } tree.children) _ :=
      block_mirrors fun child member => (tree_mirrors closed (node.2.child member)).1
    exact body.bind fun code => mirrors_pure rfl

theorem functions_mirrors (closed : base.Closed) (nodes : ∀ tree ∈ trees, IsFunctionNode base tree) :
    CodeMirrors count base (functions context trees)
      (functions (context.shift count) (trees.map (SyntaxTree.shift count))) := by
  induction trees with
  | nil => exact mirrors_pure rfl
  | cons tree rest ih =>
    exact (function_mirrors closed (nodes tree mem_cons_self)).andThen
      (ih (forall_mem_cons.mp nodes).2)

theorem newEntry_mirrors (node : IsFunctionNode base tree) :
    Mirrors count base (Prod.map (· + (count : Int)) id) (newEntry tree)
      (newEntry (tree.shift count)) := by
  refine mirrors_child fun name found => ?_
  obtain ⟨has, moved⟩ := node.name found count
  simp only [Tree.value_map, moved]
  exact mirrors_newLabel.bind fun label => mirrors_pure rfl

theorem newEntries_mirrors (nodes : ∀ tree ∈ trees, IsFunctionNode base tree) :
    Mirrors count base (List.map (Prod.map (· + (count : Int)) id)) (trees.mapM newEntry)
      ((trees.map (SyntaxTree.shift count)).mapM newEntry) := by
  induction trees with
  | nil => exact mirrors_pure rfl
  | cons tree rest ih =>
    simp only [map_cons, mapM_cons]
    refine (newEntry_mirrors (nodes tree mem_cons_self)).bind fun entry => ?_
    exact (ih (forall_mem_cons.mp nodes).2).bind
      fun entries => mirrors_pure rfl

theorem program_mirrors (closed : base.Closed) (constants : ConstantTable)
    (named : tree.Every (Names base.Has)) :
    CodeMirrors count base (program constants tree) (program constants (tree.shift count)) := by
  have filtered : (tree.children.map (SyntaxTree.shift count)).filter
      (fun child => child.value.symbol == .nonterminal "FUNC") =
      (tree.children.filter fun child => child.value.symbol == .nonterminal "FUNC").map
        (SyntaxTree.shift count) := by
    simp only [filter_map, Function.comp_def, Tree.value_map, Label.symbol_map]
  have nodes : ∀ node ∈ tree.children.filter fun child => child.value.symbol == .nonterminal "FUNC",
      IsFunctionNode base node := by
    intro node member
    obtain ⟨inside, symbol⟩ := mem_filter.mp member
    exact ⟨beq_iff_eq.mp symbol, named.child inside⟩
  -- The statements of the main block are some of the children.
  have main : ∀ node ∈ mainStatements tree.children, node.Every (Names base.Has) := by
    intro node member
    exact named.child ((dropWhile_sublist _).subset (mem_of_mem_filter member))
  simp only [program, Tree.value_map, Label.symbol_map, Tree.children_map, filtered,
    mainStatements_shift, isEmpty_map]
  refine mirrors_ite (fun _ => mirrors_throw _) fun _ => mirrors_ite (fun _ => ?_) fun _ => ?_
  · exact mainBlock_mirrors closed main
  · -- The entry labels are found under the moved handles, so that the contexts correspond.
    refine mirrors_newLabel.bind fun mainLabel => (newEntries_mirrors nodes).bind fun entries => ?_
    refine (functions_mirrors closed nodes).bind fun code => ?_
    refine (mainBlock_mirrors closed main).bind fun code => mirrors_pure ?_
    simp [Instruction.shift]

end Generate

end ThreeAddress

import ThreeAddress.Proofs.Code.Statement

/-!
The code that is generated for conditionals, loops and blocks.

The branches of a conditional take the labels that were drawn for it in order, and the last label is its end.
So a branch with a count of one is the last of them.
-/

namespace ThreeAddress

open Source List

namespace Source

variable {children : List SyntaxTree} {body rest : Option Statement} {statement : Statement}

theorem joinBranch?_untested (untested : Statement.lacksTest children = true)
    (joined : Statement.joinBranch? children body rest = some statement) :
    ∃ front last, children = front ++ [last] ∧ Generate.isBranch last = false ∧
      body = some statement := by
  rw [Statement.joinBranch?, if_pos untested] at joined
  have nonempty : children ≠ [] := by
    rintro rfl
    cases untested
  refine ⟨_, _, (dropLast_append_getLast nonempty).symm, ?_⟩
  split at joined
  · cases joined
  · next ends =>
    rw [getLast?_eq_some_getLast nonempty] at ends
    exact ⟨by simpa [Generate.isBranch] using ends, joined⟩

theorem joinBranch?_tested (tested : Statement.lacksTest children = false)
    (joined : Statement.joinBranch? children body rest = some statement) :
    ∃ test expression yes no, children[2]? = some test ∧
      Expression.read? test = some expression ∧ body = some yes ∧ rest = some no ∧
      statement = .cond expression yes no := by
  rw [Statement.joinBranch?, if_neg (by simp [tested])] at joined
  simp only [Option.bind_eq_bind, Option.bind_eq_some_iff] at joined
  obtain ⟨test, third, expression, ofTest, yes, ofBody, no, ofRest, same⟩ := joined
  cases same
  exact ⟨test, expression, yes, no, third, ofTest, ofBody, ofRest, rfl⟩

end Source

namespace Generate

theorem lastBranchCount_append (id : Nat) (front : List SyntaxTree) (last : SyntaxTree) :
    lastBranchCount id (front ++ [last]) =
      if isBranch last then (branchCount last).map (· + 1) else .ok 1 := by
  induction front with
  | nil => rfl
  | cons tree rest ih =>
    cases rest with
    | nil => rfl
    | cons second others => exact ih

theorem nextBranch_append (context : Context) (mark stop : Nat) (front : List SyntaxTree)
    (last : SyntaxTree) :
    nextBranch context mark stop (front ++ [last]) =
      if isBranch last then branch context mark stop last else pure [] := by
  induction front with
  | nil => rfl
  | cons tree rest ih =>
    cases rest with
    | nil => rfl
    | cons second others => exact ih

variable {front : List SyntaxTree} {last : SyntaxTree}

theorem readRest?_last :
    Statement.readRest? (front ++ [last]) =
      if isBranch last then Statement.readBranch? last else some .skip := by
  rw [Language.readRest?_append]
  simp [Statement.readRest?, isBranch]

theorem exists_last {children : List SyntaxTree} {test : SyntaxTree}
    (third : children[2]? = some test) : ∃ front last, children = front ++ [last] := by
  have nonempty : children ≠ [] := by
    rintro rfl
    cases third
  exact ⟨_, _, (dropLast_append_getLast nonempty).symm⟩

theorem branchCount_ok (tree : SyntaxTree) :
    ∀ {statement : Statement}, Statement.readBranch? tree = some statement →
      ∃ count, branchCount tree = .ok (count + 1) := by
  induction tree using Tree.induct with
  | node id label children ih =>
    intro statement read
    rw [Statement.readBranch?] at read
    rw [branchCount]
    cases hasTest : Statement.lacksTest children with
    | true =>
      obtain ⟨front, last, rfl, ends, -⟩ := joinBranch?_untested hasTest read
      exact ⟨0, by rw [lastBranchCount_append, ends]; rfl⟩
    | false =>
      obtain ⟨test, _, _, _, third, -, -, ofRest, -⟩ := joinBranch?_tested hasTest read
      obtain ⟨front, last, rfl⟩ := exists_last third
      rw [lastBranchCount_append]
      rw [readRest?_last] at ofRest
      cases more : isBranch last with
      | false => exact ⟨0, rfl⟩
      | true =>
        rw [more, if_pos rfl] at ofRest
        obtain ⟨count, counted⟩ := ih last (by simp) ofRest
        exact ⟨count + 1, by simp [counted, Except.map]⟩

variable {base : Environment} {program : Program} {context : Context} {scope : Nat}

/-- Code of a branch and those behind it, up to the end of a conditional. -/
def Linked (program : Program) (layout : Layout) (owned : Handle → Prop) (mark stop low : Nat)
    (statement : Statement) (code : Code) (high : Nat) : Prop :=
  (∃ test yes no, statement = .cond test yes no ∧
      Coded program layout owned (some (mark, stop)) low statement code high) ∨
    (mark = stop ∧ ∃ body, code = body ++ [.label stop] ∧
      Coded program layout owned none low statement body high)

variable {mark stop : Nat} {code others : Code}

theorem coded_branch {layout : Layout} {owned : Handle → Prop}
    {low middle further high first last : Nat} {expression : Expression} {yes no : Statement}
    {test : Code} {value : Value}
    (computes : Computes layout.scratch owned first expression test value last)
    (labels : low ≤ middle) (ofYes : Coded program layout owned none middle yes code further)
    (ofNo : (mark = stop ∧ no = .skip ∧ others = [] ∧ high = further) ∨
      Linked program layout owned (mark + 1) stop further no others high) :
    Coded program layout owned (some (mark, stop)) low (.cond expression yes no)
      (test ++ [.ifFalse value mark] ++ code ++ [.goto stop, .label mark] ++ others) high := by
  rcases ofNo with ⟨rfl, rfl, rfl, rfl⟩ | ⟨_, _, _, rfl, ofNo⟩ | ⟨rfl, body, rfl, ofNo⟩
  · rw [append_nil]
    exact .last computes labels ofYes
  · exact .branch computes labels ofYes ofNo
  · exact .otherwise computes labels ofYes ofNo

/-- What is needed for a tree of a statement to be accepted. -/
def StatementChecks (base : Environment) (program : Program) (context : Context) (scope : Nat)
    (tree : SyntaxTree) : Prop :=
  ∀ {statement : Statement} {before : Supply}, Statement.read? tree = some statement →
    statement.ScopedIn base scope → Reached base before →
    Checks base program context scope statement (Generate.statement context tree) before

/-- What is needed for a tree of a branch to be accepted, with as many labels as it has branches. -/
def BranchChecks (base : Environment) (program : Program) (context : Context) (scope : Nat)
    (tree : SyntaxTree) : Prop :=
  ∀ {statement : Statement} {before : Supply} {mark stop : Nat},
    Statement.readBranch? tree = some statement → statement.ScopedIn base scope →
    Reached base before → mark ≤ stop → branchCount tree = .ok (stop + 1 - mark) →
    Accepts (branch context mark stop tree) before (Fits base context statement) fun code after =>
      Makes base context statement before (stop + 1 - mark)
        (fun layout => Linked program layout (base.symbols.Owned scope) mark stop before.nextLabel
          statement code after.nextLabel) code after

variable {before : Supply}

theorem Codes.seq {first second : Statement} {middle after : Supply}
    (one : Codes base program context scope first before code middle)
    (two : Codes base program context scope second middle others after) :
    Codes base program context scope (.seq first second) before (code ++ others) after :=
  ⟨one.settles.append two.settles, one.places.append two.places, ⟨one.fits, two.fits⟩,
    fun last later => .seq (one.coded last (two.settles.grown.trans later)) (two.coded last later)⟩

/-- Statements up to a closing brace are accepted exactly if each of them is. -/
theorem statements_checks :
    ∀ {trees : List SyntaxTree} {statement : Statement} {before : Supply},
      (∀ tree ∈ trees, StatementChecks base program context scope tree) →
      Statement.readStatements? trees = some statement → statement.ScopedIn base scope →
      Reached base before →
      Checks base program context scope statement (statements context trees) before
  | [], _, _, _, read, _, _ => by simp [Statement.readStatements?] at read
  | tree :: rest, statement, before, each, read, inside, reached => by
    simp only [Statement.readStatements?] at read
    simp only [statements]
    split at read
    · next closes =>
      cases read
      rw [if_pos closes]
      exact skip_checks reached
    · next stays =>
      simp only [Option.bind_eq_bind, Option.bind_eq_some_iff] at read
      obtain ⟨first, ofFirst, second, ofRest, same⟩ := read
      cases same
      rw [if_neg stays]
      refine Accepts.bind (each tree (by simp) ofFirst inside.1 reached) And.left ?_
      intro code middle one
      refine Accepts.bind (statements_checks (forall_mem_cons.mp each).2
        ofRest inside.2 (reached.behind one.settles)) And.right ?_
      intro others after two
      exact accepts_pure (Codes.seq one two)

/-- A block is accepted exactly if the statements between its braces are. -/
theorem block_checks :
    ∀ {trees : List SyntaxTree} {statement : Statement} {before : Supply},
      (∀ tree ∈ trees, StatementChecks base program context scope tree) →
      Statement.readBlock? trees = some statement → statement.ScopedIn base scope →
      Reached base before → Checks base program context scope statement (block context trees) before
  | [], _, _, _, read, _, _ => by simp [Statement.readBlock?] at read
  | tree :: rest, statement, before, each, read, inside, reached => by
    have others : ∀ other ∈ rest, StatementChecks base program context scope other :=
      (forall_mem_cons.mp each).2
    simp only [Statement.readBlock?] at read
    simp only [block]
    split at read
    · next opens =>
      rw [if_pos opens]
      exact statements_checks others read inside reached
    · next stays =>
      rw [if_neg stays]
      exact block_checks others read inside reached

/-- What follows a branch is the end of the conditional, or a branch with one label less. -/
theorem nextBranch_checks {id : Nat} {statement : Statement}
    (ofLast : BranchChecks base program context scope last)
    (read : Statement.readRest? (front ++ [last]) = some statement)
    (inside : statement.ScopedIn base scope) (reached : Reached base before)
    (counted : lastBranchCount id (front ++ [last]) = .ok (stop + 1 - mark)) :
    Accepts (nextBranch context (mark + 1) stop (front ++ [last])) before
      (Fits base context statement) fun code after =>
        Makes base context statement before (stop - mark) (fun layout =>
          (mark = stop ∧ statement = .skip ∧ code = [] ∧ after.nextLabel = before.nextLabel) ∨
            Linked program layout (base.symbols.Owned scope) (mark + 1) stop before.nextLabel
              statement code after.nextLabel) code after := by
  rw [nextBranch_append]
  rw [readRest?_last] at read
  rw [lastBranchCount_append] at counted
  cases more : isBranch last with
  | false =>
    simp only [more, Bool.false_eq_true, if_false, Except.ok.injEq] at read counted ⊢
    cases read
    have none : stop - mark = 0 := by omega
    rw [none]
    exact accepts_pure ⟨.nil reached.ready, rfl, trivial, fun _ _ => .inl ⟨by omega, rfl, rfl, rfl⟩⟩
  | true =>
    simp only [more, if_true] at read counted ⊢
    obtain ⟨count, isCount⟩ := branchCount_ok last read
    simp only [isCount, Except.map, Except.ok.injEq] at counted
    have left : stop + 1 - (mark + 1) = stop - mark := by omega
    refine Accepts.mono (ofLast read inside reached (by omega) ?_) (fun fits => fits) ?_
    · rw [isCount]
      congr 1
      omega
    · rintro code after ⟨settles, places, fits, linked⟩
      exact ⟨settles, left ▸ places, fits, fun final later => .inr (linked final later)⟩

section Branches

variable {id mark stop : Nat} {label : Label} {children : List SyntaxTree} {statement : Statement}
  {before : Supply}

theorem elseWord_eq_lacksTest {word : SyntaxTree} (first : children[0]? = some word) :
    word.value.symbol.hasCategory Language.elseWord = Statement.lacksTest children := by
  cases children with
  | nil => cases first
  | cons head rest =>
    cases first
    rfl

/-- A branch without a test is the last one, so it takes the last label. It is accepted exactly if its body is. -/
theorem untested_checks
    (each : ∀ child ∈ children, StatementChecks base program context scope child)
    (untested : Statement.lacksTest children = true)
    (read : Statement.joinBranch? children (Statement.readBlock? children)
      (Statement.readRest? children) = some statement)
    (inside : statement.ScopedIn base scope) (reached : Reached base before)
    (counted : lastBranchCount id children = .ok (stop + 1 - mark)) :
    Accepts (branchCode context mark stop (.node id label children) (block context children)
      (nextBranch context (mark + 1) stop children)) before (Fits base context statement)
      fun code after => Makes base context statement before (stop + 1 - mark)
        (fun layout => Linked program layout (base.symbols.Owned scope) mark stop before.nextLabel
          statement code after.nextLabel) code after := by
  obtain ⟨front, last, rfl, ends, ofBody⟩ := joinBranch?_untested untested read
  obtain ⟨word, first⟩ : ∃ word, (front ++ [last])[0]? = some word := by
    cases front <;> exact ⟨_, rfl⟩
  rw [lastBranchCount_append, ends] at counted
  refine accepts_child first ?_
  rw [if_pos ((elseWord_eq_lacksTest first).trans untested)]
  refine Accepts.bind (block_checks each ofBody inside reached) (fun fits => fits) ?_
  intro code after made
  rw [nextBranch_append, ends]
  have same : mark = stop := by
    simp only [Bool.false_eq_true, if_false, Except.ok.injEq] at counted
    omega
  subst same
  have labelled : after.Places 1 [.label mark] after := rfl
  refine accepts_pure ?_
  rw [Nat.add_sub_cancel_left, append_nil]
  exact ⟨made.settles.with _ (by simp [Instruction.Sound]) rfl, made.places.append labelled, made.fits,
    fun last later => .inr ⟨rfl, code, rfl, made.coded last later⟩⟩

/-- A branch with a test needs a truth value, and a body and branches behind it that are accepted. -/
theorem tested_checks (constants : context.constants = base.constants)
    (each : ∀ child ∈ children, StatementChecks base program context scope child ∧
      BranchChecks base program context scope child)
    (tested : Statement.lacksTest children = false)
    (read : Statement.joinBranch? children (Statement.readBlock? children)
      (Statement.readRest? children) = some statement)
    (inside : statement.ScopedIn base scope) (reached : Reached base before) (marks : mark ≤ stop)
    (counted : lastBranchCount id children = .ok (stop + 1 - mark)) :
    Accepts (branchCode context mark stop (.node id label children) (block context children)
      (nextBranch context (mark + 1) stop children)) before (Fits base context statement)
      fun code after => Makes base context statement before (stop + 1 - mark)
        (fun layout => ∃ test yes no, statement = .cond test yes no ∧ Coded program layout
          (base.symbols.Owned scope) (some (mark, stop)) before.nextLabel statement code
          after.nextLabel) code after := by
  obtain ⟨test, expression, yes, no, third, ofTest, ofBody, ofRest, rfl⟩ :=
    joinBranch?_tested tested read
  obtain ⟨word, first⟩ : ∃ word, children[0]? = some word := by
    cases children with
    | nil => cases third
    | cons word rest => exact ⟨word, rfl⟩
  refine accepts_child first ?_
  rw [if_neg (by rw [elseWord_eq_lacksTest first, tested]; simp)]
  refine accepts_child third ?_
  rw [constants]
  -- The test is generated first, then the body, then the branches behind it.
  refine Accepts.bind (condition_accepts ofTest inside.1 reached) And.left ?_
  rintro ⟨code, value⟩ guarded testing
  have behindTest := reached.behind testing.settles
  refine Accepts.bind (block_checks (fun child member => (each child member).1) ofBody inside.2.1
    behindTest) (fun fits => fits.2.1) ?_
  intro held middle body
  obtain ⟨front, last, rfl⟩ := exists_last third
  refine Accepts.bind (nextBranch_checks (each last (by simp)).2 ofRest inside.2.2
    (behindTest.behind body.settles) counted) (fun fits => fits.2.2) ?_
  intro others after rest
  have free : Code.labels (code ++ [.ifFalse value mark]) = [] := by simpa using testing.labels
  have opened := testing.settles.with [.ifFalse value mark]
    (by simpa [Instruction.Sound] using ⟨_, testing.fits⟩) rfl
  have closed := (opened.append body.settles).with [.goto stop, .label mark]
    (by simp [Instruction.Sound]) rfl
  have marked : middle.Places 1 [.goto stop, .label mark] middle := rfl
  have placed := (((Supply.Places.quiet testing.still free).append body.places).append marked).append
    rest.places
  refine accepts_pure ⟨closed.append rest.settles, ?_, ⟨testing.typed, body.fits, rest.fits⟩,
    fun final later => ⟨expression, yes, no, rfl, ?_⟩⟩
  · rw [Nat.succ_sub marks, ← Nat.one_add]
    exact placed
  · have further := body.settles.grown.trans (rest.settles.grown.trans later)
    exact coded_branch (testing.computes final further) testing.still.ge
      (body.coded final (rest.settles.grown.trans later)) (rest.coded final later)

/-- A loop needs a truth value, and a body that is accepted. It jumps back behind its body. -/
theorem loopCode_checks (constants : context.constants = base.constants) {test : SyntaxTree}
    {expression : Expression} {body : Statement}
    (each : ∀ child ∈ children, StatementChecks base program context scope child)
    (third : children[2]? = some test) (ofTest : Expression.read? test = some expression)
    (ofBody : Statement.readBlock? children = some body)
    (inside : (Statement.loop expression body).ScopedIn base scope)
    (reached : Reached base before) :
    Checks base program context scope (.loop expression body)
      (loopCode context (.node id label children) (block context children)) before := by
  simp only [loopCode, constants]
  refine accepts_newLabel (accepts_child third ?_)
  have headed : Settles base.constants before [.label before.nextLabel]
      { before with nextLabel := before.nextLabel + 1 } :=
    .labelled reached.ready (Nat.le_succ _) (by simp [Instruction.Sound]) rfl
  refine Accepts.bind (condition_accepts ofTest inside.1 (reached.behind headed)) And.left ?_
  rintro ⟨code, value⟩ tested testing
  refine accepts_newLabel ?_
  have guarded := (headed.append testing.settles).with [.ifFalse value tested.nextLabel]
    (by simpa [Instruction.Sound] using ⟨_, testing.fits⟩) rfl
  have exits : Settles base.constants tested [] { tested with nextLabel := tested.nextLabel + 1 } :=
    .labelled testing.settles.ready (Nat.le_succ _) (by simp) rfl
  refine Accepts.bind (block_checks each ofBody inside.2
    ((reached.behind guarded).behind exits)) And.right ?_
  intro held after made
  have looped := (guarded.append (exits.append made.settles)).with
    [.goto before.nextLabel, .label tested.nextLabel] (by simp [Instruction.Sound]) rfl
  refine accepts_pure ⟨looped, ?_, ⟨testing.typed, made.fits⟩, fun last later => ?_⟩
  · -- The loop draws its own two labels, and the body goes on behind them.
    have second : tested.nextLabel = before.nextLabel + 1 := testing.still
    have ofBody := made.places
    simp only [Supply.Places, Code.labels_append, length_append,
      show code.labels = [] from testing.labels] at ofBody ⊢
    simp only [Code.labels_label, Code.labels_ifFalse, Code.labels_goto, Code.labels_nil,
      length_cons, length_nil]
    omega
  · exact .loop (testing.computes last (exits.grown.trans (made.settles.grown.trans later)))
      (Nat.lt_of_succ_le testing.still.ge) (made.coded last later)

end Branches

/-- Every statement that was read is accepted exactly if it fits, and so is every branch. -/
theorem tree_checks (prepared : context.Prepared base program) (declared : ParametersDeclared base)
    (tree : SyntaxTree) :
    StatementChecks base program context scope tree ∧
      BranchChecks base program context scope tree := by
  induction tree using Tree.induct with
  | node id label children ih =>
    have each : ∀ child ∈ children, StatementChecks base program context scope child :=
      fun child member => (ih child member).1
    constructor
    · intro statement before read inside reached
      simp only [Statement.read?] at read
      simp only [Generate.statement]
      split at read
      · next isIf =>
        rw [if_pos isIf]
        split at read
        · cases read
        · next hasTest =>
          -- The branches can be counted, so the labels can be drawn.
          obtain ⟨count, isCount⟩ := branchCount_ok (.node id label children) read
          rw [isCount]
          refine accepts_newLabels ?_
          have drawn : Settles base.constants before []
              { before with nextLabel := before.nextLabel + (count + 1) } :=
            .labelled reached.ready (Nat.le_add_right ..) (by simp) rfl
          rw [branchCount] at isCount
          refine Accepts.mono (tested_checks prepared.constants ih (by simpa using hasTest) read
            inside (reached.behind drawn) (by omega)
            (isCount.trans (congrArg Except.ok (by omega)))) (fun fits => fits) ?_
          rintro code after ⟨settles, places, fits, coded⟩
          refine ⟨drawn.append settles, ?_, fits, fun last later => ?_⟩
          · simp only [Supply.Places] at places ⊢
            omega
          · obtain ⟨test, yes, no, rfl, branches⟩ := coded last later
            exact .cond branches (by omega)
      · next notIf =>
        rw [if_neg notIf]
        split at read
        · next isLoop =>
          rw [if_pos isLoop]
          simp only [Option.bind_eq_bind, Option.bind_eq_some_iff] at read
          obtain ⟨test, third, expression, ofTest, body, ofBody, same⟩ := read
          cases same
          exact loopCode_checks prepared.constants each third ofTest ofBody inside reached
        · next notLoop =>
          rw [if_neg notLoop]
          exact simpleStatement_checks prepared declared read inside reached
    · intro statement before mark stop read inside reached marks counted
      rw [branchCount] at counted
      rw [Statement.readBranch?] at read
      rw [branch]
      cases hasTest : Statement.lacksTest children with
      | true => exact untested_checks each hasTest read inside reached counted
      | false =>
        refine Accepts.mono (tested_checks prepared.constants ih hasTest read inside reached marks
          counted) (fun fits => fits) ?_
        rintro code after ⟨settles, places, fits, coded⟩
        exact ⟨settles, places, fits, fun last later => .inl (coded last later)⟩

end Generate

end ThreeAddress

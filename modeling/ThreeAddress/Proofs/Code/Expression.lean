import ThreeAddress.Proofs.Code.Operands

/-!
The code that is generated for expressions.

Generation of an expression that was read from a tree succeeds exactly if the expression has a type.
Its operands are joined from left to right, so the code so far computes what was read so far.
-/

namespace ThreeAddress

open Source

/-- A variable of a scope. -/
def SymbolTable.Owned (table : SymbolTable) (scope : Nat) (handle : Handle) : Prop :=
  ∃ entry, table.lookup? handle = some (.var entry) ∧ (Entry.var entry).BelongsTo scope

theorem Source.NameIn.owned {environment : Environment} {scope : Nat} {handle : Handle}
    {entry : VariableEntry} (named : NameIn environment scope handle)
    (found : environment.symbols.lookup? handle = some (.var entry)) :
    environment.symbols.Owned scope handle := by
  obtain ⟨other, same, inside | outside⟩ := named
  · cases found.symm.trans same
    exact ⟨entry, found, inside⟩
  · cases found.symm.trans same
    exact absurd rfl outside.1

namespace Source

theorem noOperation_of_read {tree : SyntaxTree} {expression : Expression}
    (read : Expression.read? tree = some expression) :
    tree.value.symbol.category?.bind BinaryOperation.ofCategory? = none := by
  obtain ⟨id, ⟨symbol, token⟩, children⟩ := tree
  cases symbol with
  | nonterminal name => rfl
  | terminal name category =>
    cases children with
    | cons first rest => simp [Expression.read?, Symbol.isTerminal] at read
    | nil =>
      -- A leaf is a name or a literal, and their categories are not those of operators.
      cases token with
      | none => simp [Expression.read?, Expression.ofLeaf?] at read
      | some token =>
        have operand : category = Language.identifier ∨ category = Language.constant ∨
            category = Language.trueWord ∨ category = Language.falseWord := by
          by_contra other
          simp only [not_or] at other
          simp [Expression.read?, Expression.ofLeaf?, other] at read
        rcases operand with rfl | rfl | rfl | rfl <;> rfl

end Source

theorem BinaryOperation.resultType_isTyping {operation : BinaryOperation} {left right : ValueType}
    {error : Diagnostic} (failed : operation.resultType left right = .error error) :
    error.IsTyping := by
  simp only [resultType] at failed
  split at failed
  · cases failed
    trivial
  · split at failed
    · split at failed
      · cases failed
      · cases failed
        trivial
    · split at failed
      · cases failed
      · split at failed
        · cases failed
          trivial
        · cases failed

namespace Generate

/-- The supply that generation starts from. -/
abbrev start (base : Environment) : Supply := { symbols := base.symbols }

/-- A supply that generation has come to. -/
structure Reached (base : Environment) (supply : Supply) : Prop where
  slotless : base.symbols.returnSlot = none
  grown : (start base).Grown supply
  ready : supply.Ready

/-- Code and a value for an expression. The code computes it, whatever is drawn later. -/
structure Evaluates (base : Environment) (scope : Nat) (expression : Expression) (before : Supply)
    (result : Code × Typed) (after : Supply) : Prop where
  settles : Settles base.constants before result.1 after
  still : after.nextLabel = before.nextLabel
  fits : ValueFits base.constants after result.2
  typed : expression.HasType base result.2.type
  computes : ∀ last, after.Grown last →
    Computes last.symbols.Scratch (base.symbols.Owned scope) before.symbols.size expression
      result.1 result.2.value after.symbols.size

variable {base : Environment} {scope : Nat} {expression : Expression} {before after : Supply}

theorem Reached.behind (reached : Reached base before) {code : Code}
    (settles : Settles base.constants before code after) : Reached base after :=
  ⟨reached.slotless, reached.grown.trans settles.grown, settles.ready⟩

variable {result : Code × Typed}

theorem Evaluates.labels (evaluates : Evaluates base scope expression before result after)
    : result.1.labels = [] :=
  (evaluates.computes after (.refl after)).labels

theorem Evaluates.type_iff {type : ValueType}
    (evaluates : Evaluates base scope expression before result after) :
    result.2.type = type ↔ expression.HasType base type :=
  ⟨fun same => same ▸ evaluates.typed, fun typed => evaluates.typed.unique typed⟩

/-- A leaf has a value at once, unless it is a function. -/
theorem leaf_accepts {label : Label} (read : Expression.ofLeaf? label = some expression)
    (within : expression.Within (NameIn base scope) (LiteralIn base))
    (reached : Reached base before) :
    Accepts (leaf base.constants label) before (expression.WellTyped base) fun result after =>
      Evaluates base scope expression before ([], result) after := by
  obtain ⟨symbol, token⟩ := label
  cases symbol with
  | nonterminal name => simp [Expression.ofLeaf?] at read
  | terminal name category =>
    cases token with
    | none => simp [Expression.ofLeaf?] at read
    | some token =>
      simp only [Expression.ofLeaf?] at read
      simp only [leaf]
      split at read
      · next isName =>
        cases read
        rw [if_pos isName]
        refine accepts_lookup? ?_
        -- Every name stands for something, and a function has no type.
        obtain ⟨entry, known, _⟩ := id within
        have here := reached.grown.lookup? known
        rw [here]
        cases entry with
        | var entry =>
          exact accepts_pure ⟨.nil reached.ready, rfl, .symbol here, .name known,
            fun _ _ => .name (within.owned known)⟩
        | func entry =>
          refine accepts_report ?_ trivial
          rintro ⟨type, typed⟩
          cases typed with
          | name found => cases known.symm.trans found
      · next notName =>
        split at read
        · next isLiteral =>
          cases read
          obtain ⟨constant, known⟩ := Option.isSome_iff_exists.mp within
          rw [if_neg notName, if_pos (by simpa [or_assoc] using isLiteral), known]
          exact accepts_pure ⟨.nil reached.ready, rfl, .constant known, .literal known,
            fun _ _ => .literal⟩
        · cases read

variable {origin : Supply}

/-- Two values are joined in a temporary of their own exactly if their types fit the operation. -/
theorem combine_accepts {operation : BinaryOperation} {left right : Expression} {middle : Supply}
    {first second : Code} {one two : Typed} (reached : Reached base origin)
    (ofLeft : Evaluates base scope left origin (first, one) middle)
    (ofRight : Evaluates base scope right middle (second, two) before) :
    Accepts (combine operation one two) before ((Expression.binary operation left right).WellTyped base)
      fun result after => Evaluates base scope (.binary operation left right) origin
        (first ++ second ++ result.1, result.2) after := by
  have here := (reached.behind ofLeft.settles).behind ofRight.settles
  simp only [combine]
  split
  · next error failed =>
    refine accepts_report ?_ (BinaryOperation.resultType_isTyping failed)
    rintro ⟨type, typed⟩
    cases typed with
    | binary isLeft isRight operates =>
      have one := isLeft.unique ofLeft.typed
      have two := isRight.unique ofRight.typed
      have fits := BinaryOperation.resultType_eq_ok.mpr ⟨one.symm.trans two, one ▸ operates⟩
      rw [failed] at fits
      cases fits
  · next type found =>
    obtain ⟨same, operates⟩ := BinaryOperation.resultType_eq_ok.mp found
    have grown := Supply.Grown.ofTemporary before type
    have isNew := before.newTemporary_hasType base.constants type
    refine accepts_newTemporary (accepts_pure ⟨(ofLeft.settles.append ofRight.settles).append
      ⟨grown, here.ready.append rfl (.inl rfl), ?_, ?_⟩, ofRight.still.trans ofLeft.still,
      isNew, .binary ofLeft.typed (same ▸ ofRight.typed) operates, fun last later => ?_⟩)
    · intro instruction member
      cases List.mem_singleton.mp member
      exact ⟨one.type, type, grown.hasType (ofRight.settles.grown.hasType ofLeft.fits),
        same ▸ grown.hasType ofRight.fits, operates, isNew⟩
    · -- The variable for results has an entry, so it is not the next one.
      refine SymbolTable.drawn_newTemporary type fun isSlot => ?_
      obtain ⟨entry, found⟩ := here.ready.slot _ isSlot
      exact absurd (List.getElem?_eq_some_iff.mp found).1 (Nat.lt_irrefl _)
    · simp only [SymbolTable.size_newTemporary]
      exact .binary (ofLeft.computes last ((ofRight.settles.grown.trans grown).trans later))
        (ofRight.computes last (grown.trans later))
        (Supply.scratch_of_newTemporary here.slotless here.grown later)

/-- What an expression is accepted as, wherever it stands. -/
def ExpressionChecks (base : Environment) (scope : Nat) (tree : SyntaxTree) : Prop :=
  ∀ {expression : Expression} {before : Supply}, Expression.read? tree = some expression →
    expression.Within (NameIn base scope) (LiteralIn base) → Reached base before →
    Accepts (Generate.expression base.constants tree) before (expression.WellTyped base)
      (Evaluates base scope expression before)

/-- Operands behind a value are joined with it one after the other, exactly if all types fit. -/
theorem operands_accepts {joined : Expression} (reached : Reached base origin)
    (within : joined.Within (NameIn base scope) (LiteralIn base)) :
    ∀ {trees : List SyntaxTree} {left : Expression} {code : Code} {typed : Typed} {before : Supply},
      (∀ tree ∈ trees, ExpressionChecks base scope tree) →
      Expression.readTail? left trees = some joined →
      Evaluates base scope left origin (code, typed) before →
      Accepts (operands base.constants (.value typed) trees) before (joined.WellTyped base)
        fun result after => ∃ value, result.2 = .value value ∧
          Evaluates base scope joined origin (code ++ result.1, value) after
  | [], left, code, typed, before, _, read, ofLeft => by
    cases read
    exact accepts_pure ⟨typed, rfl, by rwa [List.append_nil]⟩
  | [_], _, _, _, _, _, read, _ => by simp [Expression.readTail?] at read
  | operator :: operand :: rest, left, code, typed, before, each, read, ofLeft => by
    simp only [Expression.readTail?, Option.bind_eq_bind, Option.bind_eq_some_iff] at read
    obtain ⟨operation, category, right, ofOperand, others⟩ := read
    have isOperation := Option.bind_eq_some_iff.mpr category
    have parts := left_of_readTail And.left others within
    -- The value so far, joined with the next operand, is a part of the whole.
    have needs : joined.WellTyped base → (Expression.binary operation left right).WellTyped base :=
      left_of_readTail .left others
    simp only [operands, isOperation, takeOperator, pure_bind, noOperation_of_read ofOperand,
      takeOperand, bind_assoc]
    refine Accepts.bind (each operand (by simp) ofOperand parts.2
      (reached.behind ofLeft.settles)) ?_ ?_
    · intro typed
      obtain ⟨type, both⟩ := needs typed
      cases both with
      | binary _ ofRight => exact ⟨_, ofRight⟩
    rintro ⟨next, value⟩ supply ofRight
    refine Accepts.bind (combine_accepts reached ofLeft ofRight) needs ?_
    rintro ⟨joins, result⟩ after ofBoth
    refine Accepts.bind (operands_accepts reached within
      (fun tree member => each tree (by simp [member])) others ofBoth) id ?_
    rintro ⟨remaining, partly⟩ last ⟨final, rfl, ofAll⟩
    exact accepts_pure ⟨final, rfl, by simpa using ofAll⟩

/-- An expression is accepted exactly if it has a type. -/
theorem expression_accepts (tree : SyntaxTree) : ExpressionChecks base scope tree := by
  induction tree using Tree.induct with
  | node id label children ih =>
    intro expression before read within reached
    cases children with
    | nil =>
      simp only [Generate.expression]
      refine Accepts.bind (leaf_accepts read within reached) (fun typed => typed) ?_
      intro value supply evaluates
      exact accepts_pure evaluates
    | cons first rest =>
      simp only [Expression.read?] at read
      split at read
      · cases read
      · obtain ⟨left, ofFirst, others⟩ := Option.bind_eq_some_iff.mp read
        simp only [Generate.expression, operands, noOperation_of_read ofFirst, takeOperand,
          bind_assoc, pure_bind]
        refine Accepts.bind (ih first (by simp) ofFirst (left_of_readTail And.left others within) reached)
          (left_of_readTail .left others) ?_
        rintro ⟨code, value⟩ supply ofLeft
        refine Accepts.bind (operands_accepts reached within
          (List.forall_mem_cons.mp ih).2 others ofLeft) (fun typed => typed) ?_
        rintro ⟨remaining, partly⟩ after ⟨final, rfl, ofAll⟩
        exact accepts_pure (by simpa using ofAll)

/-- A condition is accepted exactly if it is a truth value. -/
theorem condition_accepts {what : Text} {tree : SyntaxTree}
    (read : Expression.read? tree = some expression)
    (within : expression.Within (NameIn base scope) (LiteralIn base))
    (reached : Reached base before) :
    Accepts (condition base.constants what tree) before (expression.HasType base .boolean)
      fun result after => Evaluates base scope expression before (result.1, ⟨result.2, .boolean⟩)
        after := by
  refine Accepts.bind (expression_accepts tree read within reached) (fun typed => ⟨_, typed⟩) ?_
  rintro ⟨code, value, type⟩ supply evaluates
  dsimp only
  split
  · next isBoolean =>
    subst isBoolean
    exact accepts_pure evaluates
  · next other => exact accepts_report (mt evaluates.type_iff.mpr other) trivial

end Generate

end ThreeAddress

import ThreeAddress.Proofs.Code.Machine

/-!
Executing the code of expressions and calls.

Code stands at a place of a program, and the machine passes over it.
The code of an expression changes temporaries of its own only, so values found before stay where they are.
-/

namespace ThreeAddress

open Source List

/-- Code that stands at a place of a program. -/
def Code.At (whole : Code) (place : Nat) (part : Code) : Prop :=
  ∀ index, index < part.length → whole[place + index]? = part[index]?

namespace Code.At

variable {whole first second : Code} {place : Nat}

theorem left (placed : whole.At place (first ++ second)) : whole.At place first := by
  intro index inside
  rw [placed index (by simp only [length_append]; omega), getElem?_append_left inside]

theorem right (placed : whole.At place (first ++ second)) :
    whole.At (place + first.length) second := by
  intro index inside
  have shifted := placed (first.length + index) (by simp only [length_append]; omega)
  rw [getElem?_append_right (by omega), Nat.add_sub_cancel_left] at shifted
  rw [Nat.add_assoc]
  exact shifted

variable {instruction : Instruction} {rest : Code}

theorem head (placed : whole.At place (instruction :: rest)) : whole[place]? = some instruction :=
  placed 0 (by simp)

theorem tail (placed : whole.At place (instruction :: rest)) : whole.At (place + 1) rest := by
  have split : whole.At place ([instruction] ++ rest) := placed
  exact split.right

end Code.At

theorem Code.position?_eq : ∀ {code : Code} {place label : Nat}, code.labels.Nodup →
    code[place]? = some (.label label) → code.position? label = some place
  | [], _, _, _, found => by cases found
  | instruction :: rest, 0, label, _, found => by
    cases found
    simp [position?, idxOf?_cons]
  | instruction :: rest, place + 1, label, once, found => by
    have later : rest[place]? = some (.label label) := by simpa using found
    have isLabel : label ∈ Code.labels rest := mem_filterMap.mpr
      ⟨_, mem_of_getElem? later, rfl⟩
    -- The first instruction is not this label, which stands once and further behind.
    have other : (instruction == Instruction.label label) = false := by
      rw [beq_eq_false_iff_ne]
      rintro rfl
      rw [labels_label, nodup_cons] at once
      exact once.1 isLabel
    have onceLater : (Code.labels rest).Nodup := by
      have split := once
      rw [show instruction :: rest = [instruction] ++ rest from rfl, labels_append] at split
      exact (nodup_append.mp split).2.1
    have ih := position?_eq onceLater later
    rw [position?] at ih ⊢
    rw [idxOf?_cons, other, ih]
    rfl

variable {V : Type} {meaning : Interpretation V} {whole : Code} {scratch owned : Handle → Prop}

/-- Two stores that differ in temporaries only. -/
def Agree (scratch : Handle → Prop) (store other : Store V) : Prop :=
  ∀ handle, ¬ scratch handle → store handle = other handle

/-- What the code of an expression leaves of a store: it changes some temporaries in a row only. -/
def Framed (scratch : Handle → Prop) (low high : Nat) (before after : Store V) : Prop :=
  ∀ handle, after handle ≠ before handle →
    scratch handle ∧ ∃ index : Nat, handle = index ∧ low ≤ index ∧ index < high

theorem Framed.refl (low high : Nat) (store : Store V) : Framed scratch low high store store :=
  fun _ differs => absurd rfl differs

variable {after before : Store V} {high low : Nat} {middle : Nat}

theorem Framed.trans {between : Store V} (first : Framed scratch low middle before between)
    (second : Framed scratch middle high between after) (below : low ≤ middle)
    (above : middle ≤ high) : Framed scratch low high before after := by
  intro handle differs
  by_cases same : after handle = between handle
  · rw [same] at differs
    obtain ⟨isScratch, index, isIndex, atLeast, less⟩ := first handle differs
    exact ⟨isScratch, index, isIndex, atLeast, by omega⟩
  · obtain ⟨isScratch, index, isIndex, atLeast, less⟩ := second handle same
    exact ⟨isScratch, index, isIndex, by omega, less⟩

theorem Framed.agree (framed : Framed scratch low high before after) :
    Agree scratch before after := by
  intro handle lasting
  apply Classical.byContradiction
  intro differs
  exact lasting (framed handle (Ne.symm differs)).1

theorem Agree.trans {first second third : Store V} (before : Agree scratch first second)
    (after : Agree scratch second third) : Agree scratch first third :=
  fun handle lasting => (before handle lasting).trans (after handle lasting)

variable {store other : Store V}

theorem Agree.set (agree : Agree scratch store other) (target : Handle) (value : V)
    : Agree scratch (store.set target value) (other.set target value) := by
  intro handle lasting
  by_cases same : handle = target
  · rw [same, Store.set_self, Store.set_self]
  · rw [Store.set_of_ne _ _ same, Store.set_of_ne _ _ same]
    exact agree handle lasting

theorem Agree.bind (agree : Agree scratch store other) (targets : List Handle) (values : List V) :
    Agree scratch (store.bind targets values) (other.bind targets values) := by
  intro handle lasting
  rw [Store.bind, Store.bind, agree handle lasting]

/-- Where the value of an expression is found: a variable, a constant, or one of the temporaries taken. -/
def Value.Within (scratch owned : Handle → Prop) (low high : Nat) : Value → Prop
  | symbol handle => owned handle ∨
    (scratch handle ∧ ∃ index : Nat, handle = index ∧ low ≤ index ∧ index < high)
  | constant _ => True

/-- A value stays the same while other temporaries are taken. -/
theorem Value.Within.read_eq {value : Value} (lasting : ∀ handle, owned handle → ¬ scratch handle)
    (within : value.Within scratch owned low middle)
    (framed : Framed scratch middle high before after) :
    value.read meaning after = value.read meaning before := by
  cases value with
  | constant handle => rfl
  | symbol handle =>
    show after handle = before handle
    apply Classical.byContradiction
    intro differs
    obtain ⟨isScratch, index, isIndex, atLeast, -⟩ := framed handle differs
    rcases within with own | ⟨-, other, isOther, -, less⟩
    · exact lasting handle own isScratch
    · have same : (index : Int) = (other : Int) := isIndex.symm.trans isOther
      omega

section Expressions

variable {low high : Nat} {expression : Expression} {code : Code} {value : Value}

theorem Computes.count_le (computes : Computes scratch owned low expression code value high) :
    low ≤ high := by
  induction computes with
  | name => exact Nat.le_refl _
  | literal => exact Nat.le_refl _
  | binary _ _ _ ihLeft ihRight => omega

/-- The value of an expression is found in a variable, a constant or a temporary of its own. -/
theorem Computes.within (computes : Computes scratch owned low expression code value high) :
    value.Within scratch owned low high := by
  cases computes with
  | name own => exact .inl own
  | literal => trivial
  | @binary _ _ high _ _ _ _ _ _ _ ofLeft ofRight fresh =>
    have below := ofLeft.count_le
    have above := ofRight.count_le
    exact .inr ⟨fresh, high, rfl, by omega, by omega⟩

theorem Computes.eval_eq (lasting : ∀ handle, owned handle → ¬ scratch handle)
    (computes : Computes scratch owned low expression code value high) {store other : Store V}
    (agree : Agree scratch store other) :
    expression.eval meaning store = expression.eval meaning other := by
  induction computes with
  | name own => exact agree _ (lasting _ own)
  | literal => rfl
  | binary _ _ _ ihLeft ihRight => simp only [Expression.eval, ihLeft, ihRight]

theorem Computes.executes (lasting : ∀ handle, owned handle → ¬ scratch handle)
    (computes : Computes scratch owned low expression code value high) {place : Nat}
    (store : Store V) (stack : List Nat) (placed : whole.At place code) :
    ∃ after, Machine.Reaches meaning whole ⟨place, store, stack⟩
        ⟨place + code.length, after, stack⟩ ∧
      value.read meaning after = expression.eval meaning store ∧
      Framed scratch low high store after := by
  induction computes generalizing place store with
  | name | literal => exact ⟨store, .refl _, rfl, .refl _ _ _⟩
  | @binary low middle high operation left right before after first second ofLeft ofRight fresh
      ihLeft ihRight =>
    obtain ⟨between, reached, isLeft, framedLeft⟩ := ihLeft store placed.left.left
    obtain ⟨final, further, isRight, framedRight⟩ := ihRight between placed.left.right
    have below := ofLeft.count_le
    have above := ofRight.count_le
    have framed := framedLeft.trans framedRight below above
    -- The left value survives the code of the right operand.
    have leftValue : first.read meaning final = left.eval meaning store := by
      rw [ofLeft.within.read_eq lasting framedRight, isLeft]
    have rightValue : second.read meaning final = right.eval meaning store := by
      rw [isRight]
      exact (ofRight.eval_eq lasting framedLeft.agree).symm
    refine ⟨final.set (high : Nat) ((Expression.binary operation left right).eval meaning store),
      ?_, Store.set_self _ _ _, ?_⟩
    · refine (reached.trans further).trans (.single ?_)
      have here := placed.right.head
      simp only [length_append, ← Nat.add_assoc] at here ⊢
      simp [Machine.step, here, Machine.advance, leftValue, rightValue, Expression.eval]
    · intro handle differs
      by_cases isResult : handle = (high : Nat)
      · exact ⟨isResult ▸ fresh, high, isResult, by omega, by omega⟩
      · rw [Store.set_of_ne _ _ isResult] at differs
        obtain ⟨isScratch, index, isIndex, atLeast, less⟩ := framed handle differs
        exact ⟨isScratch, index, isIndex, atLeast, by omega⟩

end Expressions

section Arguments

variable {low high : Nat} {expressions : List Expression} {code : Code} {values : List Value}

theorem ComputesAll.count_le
    (computes : ComputesAll scratch owned low expressions code values high) : low ≤ high := by
  induction computes with
  | nil => exact Nat.le_refl _
  | cons head _ ih =>
    have first := head.count_le
    omega

/-- Values found in a row of temporaries are found in a longer one. -/
theorem Value.Within.mono {value : Value} {lower higher : Nat} (below : lower ≤ low)
    (above : high ≤ higher) (within : value.Within scratch owned low high) :
    value.Within scratch owned lower higher := by
  cases value with
  | constant handle => trivial
  | symbol handle =>
    rcases within with own | ⟨isScratch, index, isIndex, atLeast, less⟩
    · exact .inl own
    · exact .inr ⟨isScratch, index, isIndex, by omega, by omega⟩

/-- The values of arguments are found in variables, constants or temporaries of their own. -/
theorem ComputesAll.within
    (computes : ComputesAll scratch owned low expressions code values high) :
    ∀ value ∈ values, value.Within scratch owned low high := by
  induction computes with
  | nil => simp
  | cons head tail ih =>
    intro value member
    have first := head.count_le
    have rest := tail.count_le
    rcases mem_cons.mp member with rfl | later
    · exact head.within.mono (Nat.le_refl _) rest
    · exact (ih value later).mono first (Nat.le_refl _)

theorem ComputesAll.eval_eq (lasting : ∀ handle, owned handle → ¬ scratch handle)
    (computes : ComputesAll scratch owned low expressions code values high) {store other : Store V}
    (agree : Agree scratch store other) :
    expressions.map (Expression.eval meaning store) =
      expressions.map (Expression.eval meaning other) := by
  induction computes with
  | nil => rfl
  | cons head _ ih => simp only [map_cons, head.eval_eq lasting agree, ih]

/-- The machine passes over the code of arguments, and finds all their values behind it. -/
theorem ComputesAll.executes (lasting : ∀ handle, owned handle → ¬ scratch handle)
    (computes : ComputesAll scratch owned low expressions code values high) {place : Nat}
    (store : Store V) (stack : List Nat) (placed : whole.At place code) :
    ∃ after, Machine.Reaches meaning whole ⟨place, store, stack⟩
        ⟨place + code.length, after, stack⟩ ∧
      values.map (Value.read meaning after) = expressions.map (Expression.eval meaning store) ∧
      Framed scratch low high store after := by
  induction computes generalizing place store with
  | nil => exact ⟨store, .refl _, rfl, .refl _ _ _⟩
  | @cons low middle high expression rest before after value values head tail ih =>
    obtain ⟨between, reached, isHead, framedHead⟩ := head.executes lasting store stack placed.left
    obtain ⟨final, further, areRest, framedTail⟩ := ih between placed.right
    refine ⟨final, ?_, ?_, framedHead.trans framedTail head.count_le tail.count_le⟩
    · rw [length_append, ← Nat.add_assoc]
      exact reached.trans further
    · -- The first value survives the code of the other arguments.
      rw [map_cons, map_cons, areRest, head.within.read_eq lasting framedTail, isHead,
        tail.eval_eq lasting framedHead.agree]

end Arguments


end ThreeAddress

import ThreeAddress.Failure

/-!
Running steps that change a state and may fail, a failure keeping the changes made before it.

What a step ensures is what holds behind it whenever it does not fail, and steps in a row ensure what the last of them does.
-/

namespace ThreeAddress.Steps

variable {ε σ α β : Type}

/-- A step runs, and then what comes after it unless it failed. -/
@[simp]
theorem run_bind (first : ExceptT ε (StateM σ) α) (next : α → ExceptT ε (StateM σ) β)
    (state : σ) :
    (first >>= next).run state =
      match first.run state with
      | (.ok value, after) => (next value).run after
      | (.error failure, after) => (.error failure, after) := by
  simp only [ExceptT.run, bind, ExceptT.bind, ExceptT.mk, StateT.bind, ExceptT.bindCont]
  cases found : first state with
  | mk result after =>
    cases result with
    | error failure => rfl
    | ok value => rfl

@[simp]
theorem run_pure (value : α) (state : σ) :
    (pure value : ExceptT ε (StateM σ) α).run state = (.ok value, state) := rfl

@[simp]
theorem run_get (state : σ) :
    (get : ExceptT ε (StateM σ) σ).run state = (.ok state, state) := rfl

@[simp]
theorem run_set (next state : σ) :
    (set next : ExceptT ε (StateM σ) PUnit).run state = (.ok ⟨⟩, next) := rfl

/-- What holds of the value and the state behind a step that does not fail. -/
def Ensures (step : ExceptT ε (StateM σ) α) (state : σ) (good : α → σ → Prop) : Prop :=
  ∀ value after, step.run state = (.ok value, after) → good value after

section Ensures

variable {state : σ} {good : α → σ → Prop}

theorem ensures_pure {value : α} (fits : good value state) :
    Ensures (ε := ε) (pure value) state good := by
  intro result after ran
  cases ran
  exact fits

theorem ensures_throw {failure : ε} :
    Ensures (throw failure : ExceptT ε (StateM σ) α) state good := by
  intro result after ran
  cases ran

theorem ensures_modify {change : σ → σ} {good : PUnit → σ → Prop} (fits : good ⟨⟩ (change state)) :
    Ensures (ε := ε) (modify change) state good := by
  intro result after ran
  cases ran
  exact fits

theorem Ensures.bind {first : ExceptT ε (StateM σ) β} {next : β → ExceptT ε (StateM σ) α}
    {middle : β → σ → Prop} (ensures : Ensures first state middle)
    (continues : ∀ value after, middle value after → Ensures (next value) after good) :
    Ensures (first >>= next) state good := by
  intro result last ran
  rw [run_bind] at ran
  split at ran
  · next value after firstRan =>
    exact continues value after (ensures value after firstRan) result last ran
  · cases ran

theorem ensures_get_bind {next : σ → ExceptT ε (StateM σ) α}
    (continues : Ensures (next state) state good) : Ensures (get >>= next) state good := by
  intro result last ran
  rw [run_bind] at ran
  exact continues result last ran

theorem ensures_modify_bind {change : σ → σ} {next : PUnit → ExceptT ε (StateM σ) α}
    (continues : Ensures (next ⟨⟩) (change state) good) :
    Ensures (modify change >>= next) state good := by
  intro result last ran
  rw [run_bind] at ran
  exact continues result last ran

theorem ensures_throw_bind {failure : ε} {next : β → ExceptT ε (StateM σ) α} :
    Ensures ((throw failure : ExceptT ε (StateM σ) β) >>= next) state good := by
  intro result last ran
  rw [run_bind] at ran
  cases ran

theorem Ensures.mono {step : ExceptT ε (StateM σ) α} {weaker : α → σ → Prop}
    (ensures : Ensures step state good) (implies : ∀ value after, good value after → weaker value after) :
    Ensures step state weaker :=
  fun value after ran => implies value after (ensures value after ran)

end Ensures

end ThreeAddress.Steps

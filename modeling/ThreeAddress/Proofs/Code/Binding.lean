import ThreeAddress.Proofs.Code.Execution
import Mathlib.Data.List.Nodup

/-!
Binding parameters by moves.

A call gives parameters their values one after the other, so a move may read a parameter that an earlier one has changed.
The parameters get the values that the arguments had in front of all moves exactly if none does.
-/

namespace ThreeAddress

open Source List

variable {V : Type} {meaning : Interpretation V}

/-- The store behind moves in a row. -/
def Store.moved (meaning : Interpretation V) (store : Store V) :
    List (Handle × Value) → Store V
  | [] => store
  | (target, value) :: rest => moved meaning (store.set target (value.read meaning store)) rest

/-- Bindings none of which reads a variable that one before it changes. A variable that is bound to itself stays the same. -/
def Undisturbed (bindings : List (Handle × Value)) : Prop :=
  bindings.Pairwise fun earlier later => later.2 = .symbol earlier.1 → earlier.2 = .symbol earlier.1

instance : DecidablePred Undisturbed :=
  fun bindings => inferInstanceAs (Decidable (bindings.Pairwise _))

namespace Store

variable {store : Store V} {bindings : List (Handle × Value)}

theorem moved_of_notMem {handle : Handle} (other : handle ∉ bindings.map Prod.fst) :
    store.moved meaning bindings handle = store handle := by
  induction bindings generalizing store with
  | nil => rfl
  | cons binding rest ih =>
    obtain ⟨notFirst, notLater⟩ := not_or.mp (mt mem_cons.mpr other)
    exact (ih notLater).trans (set_of_ne _ _ notFirst)

/-- A variable gets the value that its binding reads behind the moves in front of it. -/
theorem moved_at (distinct : (bindings.map Prod.fst).Nodup) {index : Nat}
    (inside : index < bindings.length) :
    store.moved meaning bindings bindings[index].1 =
      bindings[index].2.read meaning (store.moved meaning (bindings.take index)) := by
  induction bindings generalizing store index with
  | nil => cases inside
  | cons binding rest ih =>
    obtain ⟨new, distinctRest⟩ := nodup_cons.mp distinct
    cases index with
    | zero => exact (moved_of_notMem new).trans (set_self _ _ _)
    | succ index => exact ih distinctRest (Nat.lt_of_succ_lt_succ inside)

/-- Bindings that do not disturb each other take place as if they were made all at once. -/
theorem moved_of_undisturbed (distinct : (bindings.map Prod.fst).Nodup)
    (undisturbed : Undisturbed bindings) :
    ∀ binding ∈ bindings, store.moved meaning bindings binding.1 = binding.2.read meaning store := by
  induction bindings generalizing store with
  | nil => simp
  | cons first rest ih =>
    obtain ⟨new, distinctRest⟩ := nodup_cons.mp distinct
    obtain ⟨apart, undisturbedRest⟩ := pairwise_cons.mp undisturbed
    intro binding member
    obtain rfl | later := mem_cons.mp member
    · exact (moved_of_notMem new).trans (set_self _ _ _)
    · refine (ih distinctRest undisturbedRest binding later).trans ?_
      -- The first move is not seen by what is read later, since it changes nothing that is read.
      cases reads : binding.2 with
      | constant handle => rfl
      | symbol handle =>
        by_cases same : handle = first.1
        · subst same
          rw [Value.read, set_self, apart binding later reads]
        · exact set_of_ne _ _ same

end Store

/-- Values that stand for themselves: every variable holds its own name. -/
def Interpretation.names : Interpretation Value where
  apply _ left _ := left
  literal := .constant
  holds _ := true

theorem Value.read_names (value : Value) : value.read Interpretation.names Value.symbol = value := by
  cases value <;> rfl

/-- Bindings that take place as if they were made all at once do not disturb each other. -/
theorem undisturbed_of_moved {bindings : List (Handle × Value)}
    (distinct : (bindings.map Prod.fst).Nodup)
    (bound : ∀ binding ∈ bindings,
      Store.moved Interpretation.names Value.symbol bindings binding.1 = binding.2) :
    Undisturbed bindings := by
  refine pairwise_iff_getElem.mpr fun earlier later isEarlier isLater before reads => ?_
  have distinctFront : ((bindings.take later).map Prod.fst).Nodup := by
    rw [map_take]
    exact distinct.sublist (take_sublist _ _)
  have inFront : earlier < (bindings.take later).length := by
    rw [length_take]
    omega
  -- What the later move reads is what the earlier one has left.
  have kept : Store.moved Interpretation.names Value.symbol (bindings.take later)
      bindings[earlier].1 =
      Store.moved Interpretation.names Value.symbol bindings bindings[earlier].1 := by
    have front := @Store.moved_at _ Interpretation.names Value.symbol _ distinctFront _ inFront
    rw [getElem_take, take_take, Nat.min_eq_left (Nat.le_of_lt before)] at front
    exact front.trans (Store.moved_at distinct isEarlier).symm
  have final := @Store.moved_at _ Interpretation.names Value.symbol _ distinct _ isLater
  rw [reads, Value.read, kept, bound _ (getElem_mem isEarlier),
    bound _ (getElem_mem isLater), reads] at final
  exact final.symm

variable {whole : Code}

theorem run_moves (stack : List Nat) : ∀ {params : List Handle} {values : List Value}
    {place : Nat} (store : Store V), values.length = params.length →
    whole.At place (moves params values) →
    Machine.run meaning whole params.length ⟨place, store, stack⟩ =
      .running ⟨place + params.length, store.moved meaning (params.zip values), stack⟩
  | [], _, _, _, _, _ => rfl
  | _ :: _, [], _, _, count, _ => by cases count
  | param :: params, value :: values, place, store, count, placed => by
    have here : whole[place]? = some (.move param value) := placed.head
    have stepped : Machine.step meaning whole ⟨place, store, stack⟩ =
        .running ⟨place + 1, store.set param (value.read meaning store), stack⟩ := by
      simp [Machine.step, here, Machine.advance]
    have rest := run_moves stack (store.set param (value.read meaning store))
      (Nat.succ_inj.mp count) placed.tail
    rw [length_cons, Machine.run, stepped]
    refine rest.trans ?_
    rw [Nat.add_right_comm, Nat.add_assoc]
    rfl

variable {params : List Handle} {values : List Value}

/-- Moves bind variables all at once, if they read none of them. -/
theorem executes_moves {place : Nat} (store : Store V) (stack : List Nat) (distinct : params.Nodup)
    (count : values.length = params.length)
    (apart : ∀ value ∈ values, ∀ param ∈ params, value ≠ .symbol param)
    (placed : whole.At place (moves params values)) :
    Machine.Reaches meaning whole ⟨place, store, stack⟩
      ⟨place + (moves params values).length,
        store.bind params (values.map (Value.read meaning store)), stack⟩ := by
  have undisturbed : Undisturbed (params.zip values) :=
    pairwise_of_forall_mem_list fun _ earlier _ later reads =>
      absurd reads (apart _ (of_mem_zip later).2 _ (of_mem_zip earlier).1)
  have bound : store.moved meaning (params.zip values) =
      store.bind params (values.map (Value.read meaning store)) := by
    funext handle
    rw [Store.bind, zip_map_right]
    cases found : ((params.zip values).map (Prod.map id (Value.read meaning store))).lookup handle with
    | none =>
      refine Store.moved_of_notMem fun member => ?_
      obtain ⟨binding, inside, rfl⟩ := mem_map.mp member
      simpa using lookup_eq_none_iff.mp found _ (mem_map_of_mem inside)
    | some value =>
      obtain ⟨front, back, split, -⟩ := lookup_eq_some_iff.mp found
      have member : (handle, value) ∈ front ++ (handle, value) :: back := by simp
      rw [← split] at member
      obtain ⟨binding, inside, same⟩ := mem_map.mp member
      cases same
      refine Store.moved_of_undisturbed ?_ undisturbed binding inside
      rwa [map_fst_zip (Nat.le_of_eq count.symm)]
  have length : (moves params values).length = params.length := by simp [moves, count]
  rw [length, ← bound]
  exact ⟨_, run_moves stack store count placed⟩

/-- Moves bind parameters to the values that were there before. -/
def Code.Binds (code : Code) (start : Nat) (params : List Handle) (values : List Value) : Prop :=
  ∀ (V : Type) (meaning : Interpretation V) (store : Store V) (stack : List Nat), ∃ after : Store V,
    Machine.run meaning code params.length ⟨start, store, stack⟩ =
      .running ⟨start + params.length, after, stack⟩ ∧
    ∀ binding ∈ params.zip values, after binding.1 = binding.2.read meaning store

/-- Moves bind parameters to the values that were there before exactly if they do not disturb each other. -/
theorem Code.binds_iff {code : Code} {start : Nat} (distinct : params.Nodup)
    (count : values.length = params.length) (placed : code.At start (moves params values)) :
    code.Binds start params values ↔ Undisturbed (params.zip values) := by
  have targets : (params.zip values).map Prod.fst = params := map_fst_zip (Nat.le_of_eq count.symm)
  rw [← targets] at distinct
  constructor
  · -- Where every variable holds its own name, no two of them can be taken for each other.
    intro binds
    obtain ⟨after, ran, bound⟩ := binds Value Interpretation.names Value.symbol []
    rw [run_moves [] _ count placed] at ran
    cases ran
    refine undisturbed_of_moved distinct fun binding member => ?_
    rw [bound binding member, Value.read_names]
  · intro undisturbed V meaning store stack
    exact ⟨_, run_moves stack store count placed, Store.moved_of_undisturbed distinct undisturbed⟩

namespace Code.At

variable {first second part : Code} {start : Nat}

theorem inLeft (placed : first.At start part) : (first ++ second).At start part := by
  intro index inside
  have here := placed index inside
  rw [getElem?_eq_getElem inside] at here ⊢
  rw [List.getElem?_append_left (List.getElem?_eq_some_iff.mp here).1, here]

theorem inRight (placed : second.At start part) : (first ++ second).At (first.length + start) part := by
  intro index inside
  rw [Nat.add_assoc, getElem?_append_right (Nat.le_add_right ..), Nat.add_sub_cancel_left]
  exact placed index inside

end Code.At

section Calls

variable {program : Program} {layout : Layout} {owned : Handle → Prop} {code : Code}

/-- A call behind moves that bind the parameters of a function to values of the block around it. -/
structure CallAt (program : Program) (layout : Layout) (owned : Handle → Prop) (code : Code)
    (start label : Nat) (function : Function) (values : List Value) : Prop where
  known : program.function? function.handle = some function
  entry : layout.entry? function.handle = some label
  count : values.length = function.params.length
  placed : code.At start (moves function.params values ++ [.call label])
  within : ∀ handle, .symbol handle ∈ values → owned handle ∨ layout.scratch handle

/-- Code in which every call stands behind moves that bind parameters. -/
def Code.Calling (program : Program) (layout : Layout) (owned : Handle → Prop) (code : Code) : Prop :=
  ∀ place label, code[place]? = some (.call label) → ∃ start function values,
    place = start + function.params.length ∧
      CallAt program layout owned code start label function values

namespace Code.Calling

theorem of_none (none : ∀ label, .call label ∉ code) : code.Calling program layout owned :=
  fun _ label found => absurd (mem_of_getElem? found) (none label)

theorem append {first second : Code} (one : first.Calling program layout owned)
    (two : second.Calling program layout owned) : (first ++ second).Calling program layout owned := by
  intro place label found
  rcases Nat.lt_or_ge place first.length with inFirst | behind
  · rw [getElem?_append_left inFirst] at found
    obtain ⟨start, function, values, rfl, call⟩ := one place label found
    exact ⟨start, function, values, rfl, { call with placed := call.placed.inLeft }⟩
  · rw [getElem?_append_right behind] at found
    obtain ⟨start, function, values, same, call⟩ := two _ label found
    exact ⟨first.length + start, function, values, by omega,
      { call with placed := call.placed.inRight }⟩

theorem of_computes (computes : code.all Instruction.computes = true) :
    code.Calling program layout owned := by
  refine .of_none fun label member => ?_
  cases all_eq_true.mp computes _ member

end Code.Calling

variable {low high : Nat}

theorem Computes.calling {scratch : Handle → Prop} {expression : Expression} {value : Value}
    (computes : Computes scratch owned low expression code value high) :
    code.Calling program layout owned :=
  .of_computes computes.all_computes

theorem Calls.calling {call : Call} (calls : Calls program layout owned call code) :
    code.Calling program layout owned := by
  cases calls with
  | @mk low high entry _ function code values known start arguments count =>
    have handle : function.handle = call.function := by simpa using find?_some known
    have length : (moves function.params values).length = function.params.length := by
      simp [moves, count]
    rw [append_assoc]
    refine (Code.Calling.of_computes arguments.all_computes).append fun place label found => ?_
    rcases Nat.lt_or_ge place (moves function.params values).length with inMoves | behind
    · rw [getElem?_append_left inMoves] at found
      cases all_eq_true.mp (moves_all_computes _ _) _ (mem_of_getElem? found)
    · -- Behind the moves there is the call and nothing else.
      rw [getElem?_append_right behind] at found
      rw [getElem?_singleton] at found
      split at found
      · next isFirst =>
        cases found
        refine ⟨0, function, values, by omega, handle ▸ known, handle ▸ start, count, ?_, ?_⟩
        · exact fun index _ => by rw [Nat.zero_add]
        · intro other member
          rcases arguments.within _ member with own | ⟨isScratch, -⟩
          · exact .inl own
          · exact .inr isScratch
      · cases found

/-- Every call in the code of a statement stands behind moves that bind the parameters of its function. -/
theorem Coded.calling {mode : Option (Nat × Nat)} {statement : Statement}
    (coded : Coded program layout owned mode low statement code high) :
    code.Calling program layout owned := by
  induction coded with
  | skip => exact .of_none (by simp)
  | assign _ computes | ret computes => exact computes.calling.append (.of_none (by simp))
  | assignCall _ calls => exact calls.calling.append (.of_none (by simp))
  | call calls => exact calls.calling
  | seq _ _ ihFirst ihSecond => exact ihFirst.append ihSecond
  | loop computes _ _ ih =>
    refine .append (.append (.append (.append ?_ computes.calling) ?_) ih) ?_
    all_goals exact .of_none (by simp)
  | cond _ _ ih => exact ih
  | last computes _ _ ih =>
    exact ((computes.calling.append (.of_none (by simp))).append ih).append (.of_none (by simp))
  | branch computes _ _ _ ihYes ihNo =>
    exact (((computes.calling.append (.of_none (by simp))).append ihYes).append
      (.of_none (by simp))).append ihNo
  | otherwise computes _ _ _ ihYes ihNo =>
    exact (((computes.calling.append (.of_none (by simp))).append ihYes).append
      (.of_none (by simp))).append (ihNo.append (.of_none (by simp)))

end Calls

end ThreeAddress

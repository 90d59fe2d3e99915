import ThreeAddress.Failure
import ThreeAddress.Grammar.Analysis
import Mathlib.Data.List.Perm.Subperm
import Mathlib.Data.List.Nodup
import Mathlib.Algebra.GroupWithZero.Nat

/-! Members of category sets, and growing steps that are repeated until nothing changes. -/

namespace ThreeAddress

open List

section Iteration

variable {σ α : Type}

theorem stabilize_induct [BEq σ] {step : σ → σ} (kept : σ → Prop)
    (preserved : ∀ state, kept state → kept (step state)) :
    ∀ budget state, kept state → kept (stabilize step budget state) := by
  intro budget
  induction budget with
  | zero => exact fun _ start => start
  | succ budget ih =>
    intro state start
    simp only [stabilize]
    split
    · exact start
    · exact ih (step state) (preserved state start)

/--
A repetition whose steps grow a bounded measure settles at a fixed point.

The budget has to exceed what the measure has left to grow.
-/
theorem stabilize_fixed [BEq σ] [LawfulBEq σ] {step : σ → σ} (kept : σ → Prop)
    (measure : σ → Nat) (bound : Nat) (preserved : ∀ state, kept state → kept (step state))
    (bounded : ∀ state, kept state → measure state ≤ bound)
    (grows : ∀ state, step state = state ∨ measure state < measure (step state)) :
    ∀ budget state, kept state → bound < measure state + budget →
      step (stabilize step budget state) = stabilize step budget state := by
  intro budget
  induction budget with
  | zero =>
    -- Without a budget the measure would already be beyond its bound.
    intro state start room
    have := bounded state start
    omega
  | succ budget ih =>
    intro state start room
    simp only [stabilize]
    split
    · next same => exact eq_of_beq same
    · next changed =>
      -- A step that changes something uses one unit of the budget and gains one of the measure.
      rcases grows state with same | larger
      · exact absurd (beq_iff_eq.mpr same) changed
      · exact ih (step state) (preserved state start) (by omega)

variable {step : σ → α → σ}

/-- A run of growing steps either changes nothing at all or grows. -/
theorem foldl_grows (measure : σ → Nat)
    (grows : ∀ state item, step state item = state ∨ measure state < measure (step state item))
    (items : List α) (state : σ) :
    items.foldl step state = state ∨ measure state < measure (items.foldl step state) := by
  induction items generalizing state with
  | nil => exact Or.inl rfl
  | cons item rest ih =>
    simp only [foldl_cons]
    rcases grows state item with same | larger
    · rw [same]
      exact ih state
    · rcases ih (step state item) with same | further
      · rw [same]
        exact Or.inr larger
      · exact Or.inr (by omega)

/-- Where a run of growing steps changes nothing, no single step of it does. -/
theorem foldl_fixed (measure : σ → Nat)
    (grows : ∀ state item, step state item = state ∨ measure state < measure (step state item))
    {items : List α} {state : σ} (same : items.foldl step state = state) :
    ∀ item ∈ items, step state item = state := by
  induction items with
  | nil => simp
  | cons item rest ih =>
    simp only [foldl_cons] at same
    -- A first step that grew could not be taken back by the others.
    have first : step state item = state := by
      rcases grows state item with unchanged | larger
      · exact unchanged
      · rcases foldl_grows measure grows rest (step state item) with stays | further
        · rw [stays] at same
          exact same
        · rw [same] at further
          omega
    rw [first] at same
    intro other member
    rcases mem_cons.mp member with rfl | behind
    · exact first
    · exact ih same other behind

/-- What holds at first and survives every single step holds behind a run of steps. -/
theorem foldl_induct (kept : σ → Prop) {items : List α} {state : σ} (start : kept state)
    (preserved : ∀ state, ∀ item ∈ items, kept state → kept (step state item)) :
    kept (items.foldl step state) := by
  induction items generalizing state with
  | nil => exact start
  | cons item rest ih =>
    exact ih (preserved state item (by simp) start)
      fun state other member => preserved state other (by simp [member])

end Iteration

namespace CategorySet

variable {category : Category} {set : CategorySet}

/-- Inserting adds exactly one member. -/
@[simp] theorem mem_insert {other : Category} :
    other ∈ insert category set ↔ other = category ∨ other ∈ set := by
  induction set with
  | nil => simp [insert]
  | cons head rest ih =>
    simp only [insert]
    split
    · simp
    · split
      · rename_i same
        subst same
        simp
      · simp only [mem_cons, ih]
        tauto

theorem insert_grows (category : Category) (set : CategorySet) :
    insert category set = set ∨ set.length < (insert category set).length := by
  induction set with
  | nil => simp [insert]
  | cons head rest ih =>
    simp only [insert]
    split
    · simp
    · split
      · simp
      · rcases ih with same | longer
        · simp [same]
        · simp [longer]

theorem insert_ascending (ascending : set.Pairwise (· < ·)) :
    (insert category set).Pairwise (· < ·) := by
  induction set with
  | nil => simp [insert]
  | cons head rest ih =>
    have ⟨below, others⟩ := pairwise_cons.mp ascending
    simp only [insert]
    split
    · rename_i smaller
      refine pairwise_cons.mpr ⟨?_, ascending⟩
      intro other member
      rcases mem_cons.mp member with rfl | behind
      · exact smaller
      · exact Int.lt_trans smaller (below other behind)
    · split
      · exact ascending
      · rename_i notSmaller different
        refine pairwise_cons.mpr ⟨?_, ih others⟩
        intro other member
        rcases mem_insert.mp member with rfl | behind
        · exact Int.lt_iff_le_and_ne.mpr ⟨Int.not_lt.mp notSmaller, Ne.symm different⟩
        · exact below other behind

variable {left right : CategorySet}

@[simp] theorem mem_union : category ∈ union left right ↔ category ∈ left ∨ category ∈ right := by
  unfold union
  induction right generalizing left with
  | nil => simp
  | cons head rest ih =>
    simp only [foldl_cons, ih, mem_insert, mem_cons]
    tauto

theorem union_grows (left right : CategorySet) :
    union left right = left ∨ left.length < (union left right).length :=
  foldl_grows List.length (fun set category => insert_grows category set) right left

theorem union_ascending (ascending : left.Pairwise (· < ·)) : (union left right).Pairwise (· < ·) :=
  foldl_induct (fun set : CategorySet => set.Pairwise (· < ·)) ascending
    fun _ _ _ kept => insert_ascending kept

@[simp] theorem mem_proper :
    category ∈ proper set ↔ category ∈ set ∧ category ≠ Category.epsilon := by
  simp [proper]

@[simp] theorem hasEpsilon_iff : hasEpsilon set = true ↔ Category.epsilon ∈ set := by
  simp [hasEpsilon]

end CategorySet

namespace CategorySets

/-- The non-terminals that have a set. -/
def keys (sets : CategorySets) : List Text := sets.map Prod.fst

/-- The number of members of all sets together. -/
def weight (sets : CategorySets) : Nat := (sets.map fun entry => entry.2.length).sum

/-- Every set is ascending and has its members from the given ones. -/
def Within (allowed : List Category) (sets : CategorySets) : Prop :=
  ∀ entry ∈ sets, entry.2.Pairwise (· < ·) ∧ ∀ category ∈ entry.2, category ∈ allowed

variable {name : Text} {sets : CategorySets} {allowed : List Category}
  {members : CategorySet} {category : Category}

@[simp] theorem keys_start (names : List Text) : (start names).keys = names := by
  simp [keys, start, Function.comp_def]

@[simp] theorem keys_add (sets : CategorySets) (name : Text) (members : CategorySet) :
    (sets.add name members).keys = sets.keys := by
  simp only [keys, add, map_map]
  refine map_congr_left fun entry _ => ?_
  simp only [Function.comp_apply]
  split <;> rfl

theorem lookup_of_mem_keys (known : name ∈ sets.keys) : sets.lookup name = some (sets.get name) := by
  cases found : sets.lookup name with
  | some set => simp [get, found]
  | none =>
    obtain ⟨entry, member, rfl⟩ := mem_map.mp known
    have absent := lookup_eq_none_iff.mp found entry member
    simp at absent

/-- What is found under a name is the set of one of the entries, if it is not empty. -/
theorem get_eq_nil_or_mem (sets : CategorySets) (name : Text) :
    sets.get name = [] ∨ (name, sets.get name) ∈ sets := by
  rw [get]
  cases found : sets.lookup name with
  | none => exact .inl rfl
  | some set =>
    obtain ⟨front, back, rfl, -⟩ := lookup_eq_some_iff.mp found
    exact .inr (by simp)

@[simp] theorem get_start (names : List Text) (name : Text) : (start names).get name = [] := by
  rcases get_eq_nil_or_mem (start names) name with none | member
  · exact none
  · obtain ⟨_, -, same⟩ := mem_map.mp member
    exact (Prod.mk.inj same).2.symm

theorem add_cons (key : Text) (set : CategorySet) (rest : CategorySets) (name : Text)
    (members : CategorySet) : add ((key, set) :: rest) name members =
      (key, if key = name then CategorySet.union set members else set) :: add rest name members := by
  simp only [add, map_cons, beq_iff_eq]
  split <;> rfl

theorem lookup_add (sets : CategorySets) (name other : Text) (members : CategorySet) :
    (sets.add name members).lookup other = (sets.lookup other).map fun set =>
      if other = name then CategorySet.union set members else set := by
  induction sets with
  | nil => rfl
  | cons entry rest ih =>
    rw [add_cons, lookup_cons, lookup_cons]
    cases same : other == entry.1 with
    | true => rw [eq_of_beq same]; rfl
    | false => exact ih

/-- Adding to a set that exists adds exactly those members, and leaves the other sets alone. -/
theorem mem_get_add {other : Text} (known : name ∈ sets.keys) :
    category ∈ (sets.add name members).get other ↔
      category ∈ sets.get other ∨ (other = name ∧ category ∈ members) := by
  rw [get, lookup_add]
  by_cases same : other = name
  · subst same
    simp [lookup_of_mem_keys known]
  · simp [same, get]

@[simp] theorem weight_cons (entry : Text × CategorySet) (rest : CategorySets) :
    weight (entry :: rest) = entry.2.length + weight rest := by
  simp [weight]

theorem add_grows (sets : CategorySets) (name : Text) (members : CategorySet) :
    sets.add name members = sets ∨ sets.weight < (sets.add name members).weight := by
  induction sets with
  | nil => exact Or.inl rfl
  | cons entry rest ih =>
    obtain ⟨key, set⟩ := entry
    simp only [add_cons, weight_cons]
    have first : (if key = name then CategorySet.union set members else set) = set ∨ set.length <
        (if key = name then CategorySet.union set members else set).length := by
      split
      · exact CategorySet.union_grows set members
      · exact .inl rfl
    -- All stays where both the first set and the others do, and otherwise one of them grows.
    rcases first with same | longer
    · rw [same]
      rcases ih with unchanged | heavier
      · exact .inl (by rw [unchanged])
      · exact .inr (by omega)
    · rcases ih with unchanged | heavier
      · exact .inr (by rw [unchanged]; omega)
      · exact .inr (by omega)

theorem add_within (within : Within allowed sets) (fit : ∀ category ∈ members, category ∈ allowed)
    : Within allowed (sets.add name members) := by
  intro entry member
  obtain ⟨⟨key, set⟩, inside, rfl⟩ := mem_map.mp member
  obtain ⟨ascending, permitted⟩ := within _ inside
  simp only
  split
  · refine ⟨CategorySet.union_ascending ascending, ?_⟩
    intro category found
    rcases CategorySet.mem_union.mp found with old | new
    · exact permitted category old
    · exact fit category new
  · exact ⟨ascending, permitted⟩

/-- Sets within what is allowed have at most that many members each. -/
theorem weight_le (within : Within allowed sets) : sets.weight ≤ sets.length * allowed.length := by
  induction sets with
  | nil => simp [weight]
  | cons entry rest ih =>
    obtain ⟨ascending, permitted⟩ := within entry (by simp)
    have distinct : entry.2.Nodup := ascending.imp Int.ne_of_lt
    have single : entry.2.length ≤ allowed.length := (distinct.subperm permitted).length_le
    have others := ih (forall_mem_cons.mp within).2
    rw [weight_cons, length_cons, Nat.succ_mul]
    omega

theorem start_within (allowed : List Category) (names : List Text) :
    Within allowed (start names) := by
  intro entry member
  obtain ⟨name, _, rfl⟩ := mem_map.mp member
  simp

theorem get_within (within : Within allowed sets) (member : category ∈ sets.get name)
    : category ∈ allowed := by
  rcases sets.get_eq_nil_or_mem name with none | found
  · simp [none] at member
  · exact (within _ found).2 category member

theorem get_ascending (within : Within allowed sets) (name : Text) :
    (sets.get name).Pairwise (· < ·) := by
  rcases sets.get_eq_nil_or_mem name with none | found
  · simp [none]
  · exact (within _ found).1

end CategorySets

end ThreeAddress

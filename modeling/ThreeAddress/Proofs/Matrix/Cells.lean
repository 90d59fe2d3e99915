import ThreeAddress.Matrix
import Mathlib.Tactic.Tauto

/-!
The stored cells of a sparse matrix.

They are kept in order, and only because of that does halving find the place of a cell.
At that place a cell is stored, overwritten or taken out, which keeps the order for the next search.
-/

namespace ThreeAddress

open List

/-- One cell comes before another, by row and then by column. -/
def Cell.Before (one other : Cell) : Prop :=
  one.row < other.row ∨ one.row = other.row ∧ one.column < other.column

namespace Matrix

/-- Halving finds the number at which a test begins to pass, if there are rounds enough for all numbers. -/
theorem bisect_eq {passes : Nat → Bool} {border : Nat} (fails : ∀ n < border, passes n = false) :
    ∀ {rounds low high : Nat}, low ≤ border → border ≤ high → high ≤ low + rounds →
      (∀ n, border ≤ n → n < high → passes n = true) → bisect passes rounds low high = border := by
  intro rounds
  induction rounds with
  | zero =>
    intro low high below above few _
    simp only [bisect]
    omega
  | succ rounds ih =>
    intro low high below above few later
    simp only [bisect]
    split
    · -- The number in the middle is on one side of the border, and so the border is on one side of it.
      by_cases early : (low + high) / 2 < border
      · rw [fails _ early, if_neg Bool.false_ne_true]
        exact ih (by omega) above (by omega) later
      · rw [later _ (by omega) (by omega), if_pos rfl]
        exact ih below (by omega) (by omega) fun n from_ upTo => later n from_ (by omega)
    · omega

variable {cells front back : List Cell} {cell : Cell}

/-- Cells in order are those before a cell, and behind them those that are not. -/
theorem exists_border (sorted : cells.Pairwise Cell.Before) (cell : Cell) :
    ∃ front back, cells = front ++ back ∧ (∀ other ∈ front, other.Before cell) ∧
      ∀ other ∈ back, ¬ other.Before cell := by
  induction cells with
  | nil => exact ⟨[], [], rfl, by simp, by simp⟩
  | cons first rest ih =>
    obtain ⟨ahead, others⟩ := pairwise_cons.mp sorted
    by_cases early : first.Before cell
    · obtain ⟨front, back, rfl, before, behind⟩ := ih others
      exact ⟨first :: front, back, rfl, by simpa [early] using before, behind⟩
    · refine ⟨[], first :: rest, rfl, by simp, ?_⟩
      rintro other member further
      rcases mem_cons.mp member with rfl | inside
      · exact early further
      · have between := ahead other inside
        unfold Cell.Before at *
        omega

/-- The search ends at the first cell that is not before the one looked for. -/
theorem position_eq (before : ∀ other ∈ front, other.Before cell)
    (behind : ∀ other ∈ back, ¬ other.Before cell) :
    position (front ++ back) cell.row cell.column = front.length := by
  refine bisect_eq (fun n inFront => ?_) (Nat.zero_le _) (by simp) (by simp) fun n late inside => ?_
  · have early := before _ (getElem_mem inFront)
    rw [getElem?_append_left inFront, getElem?_eq_getElem inFront]
    simp only [Option.any_some, Bool.or_eq_false_iff, Bool.and_eq_false_imp, decide_eq_false_iff_not,
      beq_iff_eq]
    unfold Cell.Before at early
    omega
  · have inBack : n - front.length < back.length := by
      rw [length_append] at inside
      omega
    have notEarly := behind _ (getElem_mem inBack)
    rw [getElem?_append_right late, getElem?_eq_getElem inBack]
    simp only [Option.any_some, Bool.or_eq_true, Bool.and_eq_true, decide_eq_true_eq, beq_iff_eq]
    unfold Cell.Before at notEarly
    omega

/-- Once the cells behind a place have moved up, a cell can be put there without loss. -/
theorem shift_set (front back : List Cell) (cell : Cell) :
    (shift (front ++ back ++ [cell]) front.length).set front.length cell =
      front ++ cell :: back := by
  have moved : shift (front ++ back ++ [cell]) front.length =
      front ++ (back ++ [cell]).take 1 ++ back := by
    simp [shift, take_append, take_of_length_le]
  rw [moved]
  cases back <;> simp

/-- A cell that is not among those in order is not found, and gets its place between those before and behind it. -/
theorem store_absent (before : ∀ other ∈ front, other.Before cell)
    (behind : ∀ other ∈ back, cell.Before other) (null : Int) :
    stored? (front ++ back) cell.row cell.column = none ∧ store null (front ++ back) cell =
        front ++ (if cell.value = null then [] else [cell]) ++ back := by
  have place : position (front ++ back) cell.row cell.column = front.length := by
    refine position_eq before fun other member => ?_
    have := behind other member
    unfold Cell.Before at *
    omega
  have absent : stored? (front ++ back) cell.row cell.column = none := by
    rw [stored?, place, getElem?_append_right (Nat.le_refl _), Nat.sub_self]
    cases back with
    | nil => rfl
    | cons first rest =>
      have := behind first mem_cons_self
      unfold Cell.Before at this
      simp only [getElem?_cons_zero, Option.bind_eq_bind, Option.bind_some, Bool.and_eq_true,
        beq_iff_eq]
      exact if_neg (by omega)
  refine ⟨absent, ?_⟩
  simp only [store, place, absent, shift_set, Option.isSome_none, Bool.false_eq_true, if_false]
  split <;> simp

/--
The place of a cell among those in order.

There are the cells before it, perhaps an old one at its place, and the cells behind it.
The search finds the old one, and storing puts the new one in its stead or, for a null, nothing.
-/
theorem exists_place (sorted : cells.Pairwise Cell.Before) (null : Int) (cell : Cell) :
    ∃ front held back, cells = front ++ Option.toList held ++ back ∧
      (∀ other ∈ front, other.Before cell) ∧
      (∀ other ∈ held, other.row = cell.row ∧ other.column = cell.column) ∧
      (∀ other ∈ back, cell.Before other) ∧
      stored? cells cell.row cell.column = held.map Cell.value ∧
      store null cells cell = front ++ (if cell.value = null then [] else [cell]) ++ back := by
  obtain ⟨front, back, rfl, before, late⟩ := exists_border sorted cell
  have ordered := (pairwise_append.mp sorted).2.1
  by_cases same : ∃ first rest, back = first :: rest ∧
      first.row = cell.row ∧ first.column = cell.column
  · obtain ⟨first, rest, rfl, same⟩ := same
    have place := position_eq before late
    have found : stored? (front ++ first :: rest) cell.row cell.column = some first.value := by
      simp [stored?, place, same]
    refine ⟨front, some first, rest, by simp, before, by simpa using same, ?_, found, ?_⟩
    · intro other member
      have := (pairwise_cons.mp ordered).1 other member
      unfold Cell.Before at *
      omega
    · simp only [store, place, found, Option.isSome_some, if_true]
      split <;> simp
  · -- The first cell that is not before the new one is behind it, and with it all others.
    have behind : ∀ other ∈ back, cell.Before other := by
      cases back with
      | nil => simp
      | cons first rest =>
        have apart : ¬ (first.row = cell.row ∧ first.column = cell.column) := fun equal =>
          same ⟨first, rest, rfl, equal⟩
        have := late first mem_cons_self
        intro other member
        rcases mem_cons.mp member with rfl | inside
        · unfold Cell.Before at *
          omega
        · have := (pairwise_cons.mp ordered).1 other inside
          unfold Cell.Before at *
          omega
    obtain ⟨absent, stored⟩ := store_absent before behind null
    exact ⟨front, none, back, by simp, before, by simp, behind, absent, stored⟩

variable (sorted : cells.Pairwise Cell.Before)
include sorted

/-- Storing keeps the order that the next search relies on. -/
theorem store_sorted (null : Int) (cell : Cell) : (store null cells cell).Pairwise Cell.Before := by
  obtain ⟨front, held, back, rfl, before, -, behind, -, stored⟩ := exists_place sorted null cell
  have outer : (front ++ back).Pairwise Cell.Before := sorted.sublist (by simp)
  rw [stored]
  split
  · simpa using outer
  · obtain ⟨early, later, across⟩ := pairwise_append.mp outer
    have upTo : (front ++ [cell]).Pairwise Cell.Before :=
      pairwise_append.mpr ⟨early, pairwise_singleton _ _, by simpa using before⟩
    refine pairwise_append.mpr ⟨upTo, later, fun one member other inside => ?_⟩
    rcases mem_append.mp member with inFront | new
    · exact across one inFront other inside
    · exact mem_singleton.mp new ▸ behind other inside

/-- Storing changes one cell, and a null is not stored. -/
theorem mem_store {null : Int} {other : Cell} : other ∈ store null cells cell ↔
    (other = cell ∧ cell.value ≠ null) ∨
      (other ∈ cells ∧ ¬ (other.row = cell.row ∧ other.column = cell.column)) := by
  obtain ⟨front, held, back, rfl, before, same, behind, -, stored⟩ := exists_place sorted null cell
  -- The cells on both sides are at other places.
  have apart : other ∈ front ∨ other ∈ back → ¬ (other.row = cell.row ∧ other.column = cell.column) := by
    rintro (early | late) place
    · have := before other early
      unfold Cell.Before at this
      omega
    · have := behind other late
      unfold Cell.Before at this
      omega
  have replaced := same other
  simp only [stored, mem_append, Option.mem_toList]
  rw [Option.mem_def] at replaced
  split
  · next isNull =>
    simp only [isNull, ne_eq, not_true_eq_false, and_false, not_mem_nil, or_false, false_or]
    tauto
  · next notNull =>
    simp only [notNull, ne_eq, not_false_eq_true, and_true, mem_singleton]
    tauto

/-- The search finds exactly the cells that are stored. -/
theorem stored?_iff {row column value : Int} :
    stored? cells row column = some value ↔ ⟨row, column, value⟩ ∈ cells := by
  obtain ⟨front, held, back, rfl, before, same, behind, found, -⟩ :=
    exists_place sorted 0 ⟨row, column, value⟩
  have notEarly : ⟨row, column, value⟩ ∉ front := fun member => by
    have := before _ member
    unfold Cell.Before at this
    omega
  have notLate : ⟨row, column, value⟩ ∉ back := fun member => by
    have := behind _ member
    unfold Cell.Before at this
    omega
  rw [found]
  simp only [mem_append, Option.mem_toList, notEarly, notLate, false_or, or_false,
    Option.map_eq_some_iff]
  constructor
  · rintro ⟨other, isHeld, rfl⟩
    obtain ⟨rfl, rfl⟩ := same other isHeld
    exact isHeld
  · exact fun isHeld => ⟨_, isHeld, rfl⟩

theorem stored?_store (null : Int) (cell : Cell) (row column : Int) :
    stored? (store null cells cell) row column = if row = cell.row ∧ column = cell.column then
        if cell.value = null then none else some cell.value
      else stored? cells row column := by
  refine Option.ext fun value => ?_
  obtain ⟨cellRow, cellColumn, cellValue⟩ := cell
  rw [stored?_iff (store_sorted sorted null _), mem_store sorted]
  simp only [Cell.mk.injEq]
  split
  · next here =>
    split
    · next isNull => simp [isNull, here]
    · next notNull => simp [notNull, here, eq_comm]
  · next apart =>
    simp only [apart, not_false_eq_true, and_true, stored?_iff sorted]
    refine or_iff_right fun same => apart ⟨same.1.1, same.1.2.1⟩

end Matrix

end ThreeAddress

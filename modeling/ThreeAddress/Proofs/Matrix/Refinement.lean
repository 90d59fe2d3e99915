import ThreeAddress.Proofs.Matrix.Cells
import Mathlib.Data.Finset.Prod
import Mathlib.Data.Int.ConditionallyCompleteOrder
import Mathlib.Data.Int.Interval
import Mathlib.Order.ConditionallyCompleteLattice.Basic

/-!
A sparse matrix as a map.

Whatever is asked of a matrix, a cell holds the value that was written to it last, and null if there is none.
-/

namespace ThreeAddress

/-- What can be asked of a matrix: to set a cell, or to tell its value. -/
inductive MatrixRequest where
  | set (row column value : Int)
  | value (row column : Int)
deriving DecidableEq, Repr

namespace MatrixRequest

/-- The row of the cell that a request is about. -/
def row : MatrixRequest → Int
  | .set row .. => row
  | .value row _ => row

/-- The column of the cell that a request is about. -/
def column : MatrixRequest → Int
  | .set _ column _ => column
  | .value _ column => column

/-- What a request writes to a cell. -/
def written? (row column : Int) : MatrixRequest → Option Int
  | .set otherRow otherColumn written =>
    if row = otherRow ∧ column = otherColumn then some written else none
  | .value .. => none

theorem written?_elsewhere {request : MatrixRequest} {row column : Int}
    (apart : ¬ (row = request.row ∧ column = request.column)) :
    request.written? row column = none := by
  cases request with
  | set otherRow otherColumn value => exact if_neg apart
  | value otherRow otherColumn => rfl

end MatrixRequest

/-- The value that was written to a cell last, or null if there is none. -/
def lastWritten (null : Int) (requests : List MatrixRequest) (row column : Int) : Int :=
  (requests.filterMap (MatrixRequest.written? row column)).getLastD null

/-- A request to write is the last one for its cell, and says nothing about others. -/
theorem lastWritten_append {null : Int} (history : List MatrixRequest) (request : MatrixRequest)
    (row column : Int) : lastWritten null (history ++ [request]) row column =
      (request.written? row column).getD (lastWritten null history row column) := by
  rw [lastWritten, List.filterMap_append]
  cases found : request.written? row column with
  | none => simp [lastWritten, found]
  | some value => simp [found]

/-- What is to be answered about a cell after some requests to a matrix of the given size. -/
def answerAfter (rows columns null : Int) (requests : List MatrixRequest) (row column : Int) :
    Except Fault Int :=
  if (0 ≤ row ∧ row < rows) ∧ 0 ≤ column ∧ column < columns then
    .ok (lastWritten null requests row column)
  else .error (.matrixIndex row column rows columns)

namespace Matrix

/-- Serves a request. A fault leaves the matrix as it was. -/
def serve (matrix : Matrix) : MatrixRequest → Except Fault Int × Matrix
  | .set row column value =>
    match matrix.set row column value with
    | .ok (old, after) => (.ok old, after)
    | .error cause => (.error cause, matrix)
  | .value row column => (matrix.value row column, matrix)

/-- Serves requests one after the other. -/
def serveAll (matrix : Matrix) : List MatrixRequest → List (Except Fault Int) × Matrix
  | [] => ([], matrix)
  | request :: rest =>
    let (answer, next) := matrix.serve request
    let (answers, last) := next.serveAll rest
    (answer :: answers, last)

/-- A matrix holds what was written to it last, in order and without nulls. -/
structure Reflects (rows columns null : Int) (history : List MatrixRequest) (matrix : Matrix) :
    Prop where
  rows_eq : matrix.rows = rows
  columns_eq : matrix.columns = columns
  null_eq : matrix.null = null
  sorted : matrix.cells.Pairwise Cell.Before
  inside : ∀ cell ∈ matrix.cells, matrix.contains cell.row cell.column = true
  proper : ∀ cell ∈ matrix.cells, cell.value ≠ null
  held : ∀ row column, matrix.contains row column = true →
    (stored? matrix.cells row column).getD null = lastWritten null history row column

variable {rows columns null : Int} {history : List MatrixRequest} {matrix : Matrix}
  {column row : Int}

theorem contains_iff : matrix.contains row column = true ↔
    (0 ≤ row ∧ row < matrix.rows) ∧ 0 ≤ column ∧ column < matrix.columns := by
  simp [contains, and_assoc]

theorem serve_outside {request : MatrixRequest}
    (missed : ¬ matrix.contains request.row request.column = true) :
    matrix.serve request = (.error (matrix.outside request.row request.column), matrix) := by
  cases request with
  | set row column value =>
    simp only [MatrixRequest.row, MatrixRequest.column] at missed ⊢
    simp only [serve, set, if_neg missed]
  | value row column =>
    simp only [MatrixRequest.row, MatrixRequest.column] at missed ⊢
    rw [serve, value, if_neg missed]

namespace Reflects

variable (reflects : Reflects rows columns null history matrix)
include reflects

theorem answer_inside (contained : matrix.contains row column = true) :
    answerAfter rows columns null history row column =
      .ok (lastWritten null history row column) := by
  rw [contains_iff, reflects.rows_eq, reflects.columns_eq] at contained
  exact if_pos contained

theorem answer_outside (missed : ¬ matrix.contains row column = true) :
    answerAfter rows columns null history row column = .error (matrix.outside row column) := by
  rw [contains_iff, reflects.rows_eq, reflects.columns_eq] at missed
  rw [outside, reflects.rows_eq, reflects.columns_eq]
  exact if_neg missed

theorem value_eq (row column : Int) :
    matrix.value row column = answerAfter rows columns null history row column := by
  rw [value]
  split
  · next contained =>
    rw [reflects.answer_inside contained, reflects.null_eq, reflects.held row column contained]
  · next missed => rw [reflects.answer_outside missed]

/-- Setting a cell gives back what was written last, and the new value is now the last. -/
theorem set_eq (contained : matrix.contains row column = true) (value : Int) :
    ∃ after, matrix.set row column value = .ok (lastWritten null history row column, after) ∧
      Reflects rows columns null (history ++ [.set row column value]) after := by
  obtain ⟨rfl, rfl, rfl, sorted, inside, proper, held⟩ := reflects
  rw [set, if_pos contained]
  refine ⟨_, by rw [held row column contained], ?_⟩
  refine ⟨rfl, rfl, rfl, store_sorted sorted _ _, fun cell member => ?_, fun cell member => ?_, ?_⟩
  · rcases (mem_store sorted).mp member with ⟨rfl, -⟩ | ⟨before, -⟩
    · exact contained
    · exact inside cell before
  · rcases (mem_store sorted).mp member with ⟨rfl, proper⟩ | ⟨before, -⟩
    · exact proper
    · exact proper cell before
  · intro otherRow otherColumn within
    rw [stored?_store sorted, lastWritten_append, MatrixRequest.written?]
    split
    · next here =>
      -- What is not stored is null, so that a null is told like any other value.
      split
      · next isNull => exact isNull.symm
      · rfl
    · exact held otherRow otherColumn within

theorem idle {request : MatrixRequest}
    (idle : ∀ row column, matrix.contains row column = true → request.written? row column = none) :
    Reflects rows columns null (history ++ [request]) matrix :=
  { reflects with
    held := fun row column contained => by
      rw [lastWritten_append, idle row column contained]
      exact reflects.held row column contained }

theorem serve (request : MatrixRequest) : ∃ after, matrix.serve request =
        (answerAfter rows columns null history request.row request.column, after) ∧
      Reflects rows columns null (history ++ [request]) after := by
  by_cases contained : matrix.contains request.row request.column = true
  · cases request with
    | value row column =>
      exact ⟨matrix, congrArg (·, matrix) (reflects.value_eq row column),
        reflects.idle fun _ _ _ => rfl⟩
    | set row column value =>
      simp only [MatrixRequest.row, MatrixRequest.column] at contained ⊢
      obtain ⟨after, done, further⟩ := reflects.set_eq contained value
      refine ⟨after, ?_, further⟩
      simp only [Matrix.serve, done, reflects.answer_inside contained]
  · -- Outside nothing is written, and no cell inside is meant.
    refine ⟨matrix, ?_, reflects.idle fun row column within => ?_⟩
    · rw [serve_outside contained, reflects.answer_outside contained]
    · refine MatrixRequest.written?_elsewhere ?_
      rintro ⟨rfl, rfl⟩
      exact contained within

theorem mem_cells {value : Int} :
    ⟨row, column, value⟩ ∈ matrix.cells ↔
      answerAfter rows columns null history row column = .ok value ∧ value ≠ null := by
  rw [← stored?_iff reflects.sorted]
  by_cases contained : matrix.contains row column = true
  · rw [reflects.answer_inside contained, ← reflects.held row column contained]
    cases found : stored? matrix.cells row column with
    | none => simp [eq_comm]
    | some held =>
      have proper := reflects.proper _ ((stored?_iff reflects.sorted).mp found)
      simp only [Option.getD_some, Option.some.injEq, Except.ok.injEq, iff_self_and]
      rintro rfl
      exact proper
  · rw [reflects.answer_outside contained]
    simp only [reduceCtorEq, false_and, iff_false]
    intro stored
    exact contained (reflects.inside _ ((stored?_iff reflects.sorted).mp stored))

theorem count_eq :
    matrix.count = ((Finset.Ico 0 rows ×ˢ Finset.Ico 0 columns).filter fun place =>
      lastWritten null history place.1 place.2 ≠ null).card := by
  -- In order no place is stored twice, so that the places can be counted as a set.
  have distinct : (matrix.cells.map fun cell => (cell.row, cell.column)).Nodup := by
    refine List.pairwise_map.mpr (reflects.sorted.imp fun {one other} before same => ?_)
    obtain ⟨rowEq, columnEq⟩ := Prod.mk.inj same
    unfold Cell.Before at before
    omega
  have places := List.toFinset_card_of_nodup distinct
  rw [List.length_map] at places
  rw [count, ← places]
  congr 1
  ext ⟨row, column⟩
  simp only [List.mem_toFinset, List.mem_map, Finset.mem_filter, Finset.mem_product, Finset.mem_Ico]
  constructor
  · rintro ⟨⟨otherRow, otherColumn, value⟩, member, same⟩
    obtain ⟨rfl, rfl⟩ := Prod.mk.inj same
    have contained := reflects.inside _ member
    obtain ⟨answer, proper⟩ := reflects.mem_cells.mp member
    rw [reflects.answer_inside contained] at answer
    rw [contains_iff, reflects.rows_eq, reflects.columns_eq] at contained
    exact ⟨contained, Except.ok.inj answer ▸ proper⟩
  · rintro ⟨within, proper⟩
    exact ⟨_, reflects.mem_cells.mpr ⟨if_pos within, proper⟩, rfl⟩

end Reflects

/-- Requests one after the other are answered by what was written last before each. -/
theorem Reflects.serveAll (requests : List MatrixRequest) :
    ∀ {history : List MatrixRequest} {matrix : Matrix},
    Reflects rows columns null history matrix → ∃ answers after,
      matrix.serveAll requests = (answers, after) ∧ answers.length = requests.length ∧
      (∀ front request back, requests = front ++ request :: back → answers[front.length]? =
        some (answerAfter rows columns null (history ++ front) request.row request.column)) ∧
      Reflects rows columns null (history ++ requests) after := by
  induction requests with
  | nil =>
    intro history matrix reflects
    exact ⟨[], matrix, rfl, rfl, by simp, by simpa using reflects⟩
  | cons request rest ih =>
    intro history matrix reflects
    obtain ⟨next, served, further⟩ := reflects.serve request
    obtain ⟨answers, after, behind, length, each, final⟩ := ih further
    refine ⟨answerAfter rows columns null history request.row request.column :: answers, after, ?_,
      by simp [length], fun front other back split => ?_, by simpa using final⟩
    · simp only [Matrix.serveAll, served, behind]
    · cases front with
      | nil =>
        cases split
        simp
      | cons first front =>
        cases split
        simpa using each front other back rfl

/--
A matrix is a map from its cells to the values that were written to them last.

Every request is answered by what was written last before it, and one outside of the matrix by a fault that changes nothing.
The cells that are not null are visited once each in ascending order, and counted.
-/
theorem serveAll_refines_history {rows columns : Int} (null : Int) (tall : 0 ≤ rows)
    (wide : 0 ≤ columns) (requests : List MatrixRequest) :
    ∃ matrix answers after, create rows columns null = .ok matrix ∧
      matrix.serveAll requests = (answers, after) ∧ answers.length = requests.length ∧
      (∀ front request back, requests = front ++ request :: back → answers[front.length]? =
        some (answerAfter rows columns null front request.row request.column)) ∧
      (∀ row column, after.value row column = answerAfter rows columns null requests row column) ∧
      after.cells.Pairwise Cell.Before ∧ after.each Cell.mk = after.cells ∧
      (∀ row column value, ⟨row, column, value⟩ ∈ after.cells ↔
        answerAfter rows columns null requests row column = .ok value ∧ value ≠ null) ∧
      after.count = ((Finset.Ico 0 rows ×ˢ Finset.Ico 0 columns).filter fun place =>
        lastWritten null requests place.1 place.2 ≠ null).card ∧
      ∀ request, ¬ ((0 ≤ request.row ∧ request.row < rows) ∧
          0 ≤ request.column ∧ request.column < columns) →
        after.serve request = (.error (.matrixIndex request.row request.column rows columns), after) := by
  have blank : Reflects rows columns null [] ⟨rows, columns, null, []⟩ :=
    ⟨rfl, rfl, rfl, .nil, by simp, by simp, fun _ _ _ => rfl⟩
  obtain ⟨answers, after, served, length, each, reflects⟩ := blank.serveAll requests
  refine ⟨_, answers, after, ?_, served, length, each, reflects.value_eq, reflects.sorted,
    List.map_id _, fun _ _ _ => reflects.mem_cells, reflects.count_eq, fun request missed => ?_⟩
  · simp [create, Int.not_lt.mpr tall, Int.not_lt.mpr wide]
  · have missed : ¬ after.contains request.row request.column = true := by
      rwa [contains_iff, reflects.rows_eq, reflects.columns_eq]
    rw [serve_outside missed, outside, reflects.rows_eq, reflects.columns_eq]

/-- Cells are set, overwritten, cleared and set again, and two requests are outside of a matrix of two rows. -/
def clearedAndSet : List MatrixRequest :=
  [.set 1 2 5, .set 0 1 7, .set 1 2 6, .set 1 2 (-1), .set 0 0 (-1), .value 1 2, .set 2 0 3,
    .set 1 2 8, .set 1 0 9, .value 0 3]

/-- Each answer is the value from before, and the three cells that are left are in order. -/
theorem serveAll_refines_cleared : ∃ matrix answers after, create 2 3 (-1) = .ok matrix ∧
    matrix.serveAll clearedAndSet = (answers, after) ∧
    answers.map Except.toOption = [some (-1), some (-1), some 5, some 6, some (-1), some (-1), none,
      some (-1), some (-1), none] ∧
    after.cells = [⟨0, 1, 7⟩, ⟨1, 0, 9⟩, ⟨1, 2, 8⟩] ∧ after.value 1 2 = .ok 8 ∧
    after.cells.Pairwise Cell.Before ∧
    after.serve (.set 2 0 3) = (.error (.matrixIndex 2 0 2 3), after) := by
  obtain ⟨matrix, answers, after, created, served, -, -, values, sorted, -, -, -, missed⟩ :=
    serveAll_refines_history (-1) (show (0 : Int) ≤ 2 by decide) (show (0 : Int) ≤ 3 by decide)
      clearedAndSet
  have computed : ((⟨2, 3, -1, []⟩ : Matrix).serveAll clearedAndSet).map
      (List.map Except.toOption) cells =
      ([some (-1), some (-1), some 5, some 6, some (-1), some (-1), none, some (-1), some (-1), none],
        [⟨0, 1, 7⟩, ⟨1, 0, 9⟩, ⟨1, 2, 8⟩]) := by decide
  cases created
  rw [served] at computed
  obtain ⟨same, listed⟩ := Prod.mk.inj computed
  exact ⟨_, answers, after, rfl, served, same, listed, (values 1 2).trans rfl, sorted,
    missed (.set 2 0 3) (by decide)⟩

end Matrix

end ThreeAddress

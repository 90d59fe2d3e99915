import ThreeAddress.Fault

/-!
Sparse matrices of integers.

A matrix has a null value, which every cell holds that was not set otherwise, and stores the other cells only.
-/

namespace ThreeAddress

/-- A stored cell. -/
structure Cell where
  row : Int
  column : Int
  value : Int
deriving DecidableEq, Repr

/-- A sparse matrix: its stored cells are in ascending order of row and column, and none is null. -/
structure Matrix where
  rows : Int
  columns : Int
  null : Int
  cells : List Cell := []
deriving DecidableEq, Repr

namespace Matrix

def defaultNull : Int := -2147483648

def create (rows columns null : Int) : Except Fault Matrix :=
  if rows < 0 || columns < 0 then .error (.matrixDimensions rows columns)
  else .ok { rows, columns, null }

def count (matrix : Matrix) : Nat :=
  matrix.cells.length

def contains (matrix : Matrix) (row column : Int) : Bool :=
  0 ≤ row && row < matrix.rows && 0 ≤ column && column < matrix.columns

def outside (matrix : Matrix) (row column : Int) : Fault :=
  .matrixIndex row column matrix.rows matrix.columns

/--
The first number from one on and up to another that passes a test, found by halving what is between them.

No number that passes may come before one that fails.
The first argument bounds the rounds, of which there are fewer than numbers to begin with.
-/
def bisect (passes : Nat → Bool) : Nat → Nat → Nat → Nat
  | 0, low, _ => low
  | rounds + 1, low, high =>
    if low < high then
      let middle := (low + high) / 2
      if passes middle then bisect passes rounds low middle
      else bisect passes rounds (middle + 1) high
    else low

/-- The place of a cell among the stored ones: where it is, or where it would have to be. -/
def position (cells : List Cell) (row column : Int) : Nat :=
  bisect
    (fun place => cells[place]?.any fun cell =>
      row < cell.row || (cell.row == row && column ≤ cell.column))
    cells.length 0 cells.length

def stored? (cells : List Cell) (row column : Int) : Option Int := do
  let cell ← cells[position cells row column]?
  -- The search ends at the first cell that is not before the one looked for, which may be another.
  if cell.row == row && cell.column == column then some cell.value else none

/-- Copies the cells from a place on to the places behind. The last one is overwritten. -/
def shift (cells : List Cell) (place : Nat) : List Cell :=
  cells.take (place + 1) ++ (cells.drop place).dropLast

/-- The stored cells once a cell has a new value. Null is not stored, so setting null is erasing. -/
def store (null : Int) (cells : List Cell) (cell : Cell) : List Cell :=
  let place := position cells cell.row cell.column
  if (stored? cells cell.row cell.column).isSome then
    if cell.value = null then cells.take place ++ cells.drop (place + 1)
    else cells.set place cell
  else if cell.value = null then cells
  -- The list is made longer by a cell of any kind, so that those behind can move up.
  else (shift (cells ++ [cell]) place).set place cell

def value (matrix : Matrix) (row column : Int) : Except Fault Int :=
  if matrix.contains row column then .ok ((stored? matrix.cells row column).getD matrix.null)
  else .error (matrix.outside row column)

/-- Sets a cell, and tells what it held before. -/
def set (matrix : Matrix) (row column value : Int) : Except Fault (Int × Matrix) :=
  if matrix.contains row column then
    .ok ((stored? matrix.cells row column).getD matrix.null,
      { matrix with cells := store matrix.null matrix.cells ⟨row, column, value⟩ })
  else .error (matrix.outside row column)

/-- What a visitor answers for every cell that is not null, row by row. -/
def each {α : Type} (matrix : Matrix) (visit : Int → Int → Int → α) : List α :=
  matrix.cells.map fun cell => visit cell.row cell.column cell.value

end Matrix

end ThreeAddress

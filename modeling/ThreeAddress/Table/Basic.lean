import ThreeAddress.Grammar.Analysis
import ThreeAddress.Matrix

/-!
LL(1) parsing tables.

A table says which production to predict for a non-terminal and a lookahead.
Rows are the non-terminals in order, and columns are the categories from the end of input upwards.
-/

namespace ThreeAddress

/-- A cell for which two productions were found. -/
structure Conflict where
  nonterminal : Text
  lookahead : Category
  discarded : Production
  kept : Production
deriving DecidableEq, Repr

def Conflict.text (conflict : Conflict) : Text :=
  "M[" ++ conflict.nonterminal ++ "," ++ Text.ofInt conflict.lookahead ++ "]: " ++
    conflict.discarded.text ++ " overwritten by " ++ conflict.kept.text

/-- A parsing table for a grammar, with the non-terminals by row. -/
structure Table where
  grammar : Grammar
  names : List Text
  registry : Registry
  matrix : Matrix
  conflicts : List Conflict := []
deriving DecidableEq, Repr

namespace Table

/-- The greatest category with a column: the greatest one registered or used, and at least zero. -/
def greatestCategory (grammar : Grammar) (registry : Registry) : Category :=
  ((registry.entries ++ grammar.terminals).map Prod.fst).foldl max 0

/-- The number of columns, as a word of 64 bits with a sign. -/
def columnCount (greatest : Category) : Int :=
  (greatest - Category.endOfInput + 1).bmod 0x10000000000000000

def row? (table : Table) (name : Text) : Option Int :=
  (table.names.findIdx? fun other => other == name).map Int.ofNat

def column? (matrix : Matrix) (lookahead : Category) : Option Int :=
  let column := lookahead - Category.endOfInput
  if column < 0 || matrix.columns ≤ column then none else some column

/--
Enters the serial number of a production into a cell.

Cells are words of 32 bits with a sign, which serial numbers fit as long as a grammar has at most 2^31 productions.
-/
def enter (table : Table) (row : Int) (name : Text) (lookahead : Category)
    (production : Production) : Except Fault Table :=
  match column? table.matrix lookahead with
  | none => .error (.lookaheadRange lookahead)
  | some column => do
    -- The matrix tells what the cell held before, and only a different production is a conflict.
    let (old, matrix) ← table.matrix.set row column production.serial
    let table := { table with matrix }
    match table.grammar.production? old with
    | some discarded =>
      if old = production.serial then return table
      else
        return { table with
          conflicts := table.conflicts ++ [⟨name, lookahead, discarded, production⟩] }
    | none => return table

def enterRow (analysis : Analysis) (table : Table) (row : Int) (name : Text) :
    Except Fault Table := do
  -- FIRST is entered last, so that a cell claimed twice keeps the production that reads something.
  let vanishing ← match analysis.epsilonProduction? name with
    | none => pure table
    | some production =>
      (analysis.follow.get name).foldlM
        (fun table lookahead => table.enter row name lookahead production) table
  (analysis.first.get name).proper.foldlM
    (fun table lookahead =>
      match analysis.firstProduction? name lookahead with
      | none => pure table
      | some production => table.enter row name lookahead production)
    vanishing

def build (analysis : Analysis) (registry : Registry) : Except Fault Table := do
  let grammar := analysis.grammar
  let names := grammar.nonterminals
  let matrix ← Matrix.create names.length
    (columnCount (greatestCategory grammar registry)) Matrix.defaultNull
  names.zipIdx.foldlM
    (fun table (name, row) => enterRow analysis table (Int.ofNat row) name)
    { grammar, names, registry, matrix }

def production? (table : Table) (name : Text) (lookahead : Category) : Option Production := do
  let row ← table.row? name
  -- A category that nobody registered or used has no column, and so no production.
  let column ← column? table.matrix lookahead
  let serial ← Matrix.stored? table.matrix.cells row column
  table.grammar.production? serial

def cells (table : Table) : List (Text × Category × Production) :=
  let visited := table.matrix.each fun row column value => do
    let name ← table.names[row.toNat]?
    let production ← table.grammar.production? value
    return (name, column + Category.endOfInput, production)
  visited.filterMap id

def size (table : Table) : Nat :=
  table.matrix.count

end Table

end ThreeAddress

import ThreeAddress.Table.Basic

/-! The sets and the table of a grammar in columns. -/

namespace ThreeAddress

namespace Grid

/-- A cell filled up with blanks to a number of bytes. -/
def pad (width : Nat) (cell : Text) : Text :=
  cell ++ List.replicate (width - cell.length) 0x20

/-- The number of bytes of the longest cell of each column. -/
def widths : List (List Text) → List Nat
  | [] => []
  | [row] => row.map List.length
  | row :: second :: rest =>
    (row.map List.length).zipWith max (widths (second :: rest))

def text (rows : List (List Text)) : Text :=
  let columns := widths rows
  rows.flatMap fun row => Text.join " | " (columns.zipWith pad row) ++ "\n"

def heading (title : Text) : Text :=
  "\n# " ++ title ++ "\n\n"

end Grid

def Table.report (analysis : Analysis) (table : Table) : Text :=
  let names (set : Option CategorySet) : Text :=
    Text.join " " ((set.getD []).map table.registry.nameOf)
  let sets := analysis.grammar.nonterminals.map fun name =>
    [name, names (analysis.first? name), names (analysis.follow? name)]
  let cells := table.cells.map fun (name, lookahead, production) =>
    [name, table.registry.nameOf lookahead, production.text]
  Grid.heading "FIRST and FOLLOW" ++ Grid.text (["Non-Terminal", "FIRST", "FOLLOW"] :: sets) ++
    Grid.heading "Parsing Table" ++ Grid.text (["Non-Terminal", "Lookahead", "Production"] :: cells)

end ThreeAddress

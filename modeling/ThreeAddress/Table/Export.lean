import ThreeAddress.Digest.Md5
import ThreeAddress.Table.Basic
import ThreeAddress.Text.Markup

/-! A parsing table as a fingerprint and as a document. -/

namespace ThreeAddress.Table

def cellSnapshot (cell : Text × Category × Production) : Text :=
  let (name, lookahead, production) := cell
  "\x7bLookahead:" ++ Text.ofInt lookahead ++ ",NonTerminal:\"" ++ name ++ "\",Production:\"" ++
    production.text ++ "\"\x7d"

/-- All that a fingerprint depends on: the filled cells in order, and the start symbol. -/
def snapshot (table : Table) : Text :=
  "\x7bCells:[" ++ Text.join "," (table.cells.map cellSnapshot) ++ "],Start:\"" ++
    table.grammar.start ++ "\"\x7d"

/-- The fingerprint of a table: a digest of its snapshot, behind the version of its form. -/
def fingerprint (table : Table) : Text :=
  "v1_" ++ Md5.hex table.snapshot

/-- One cell of the document: the serial number of the production, or a blank. -/
def documentCell (table : Table) (name : Text) (lookahead : Category) : Text :=
  let content : Text := match table.production? name lookahead with
    | some production => Text.ofNat production.serial
    | none => "&nbsp;"
  "<td>" ++ content ++ "</td>\n"

def documentRow (table : Table) (lookaheads : List Category) (name : Text) : Text :=
  "<tr><td>" ++ name.markup ++ "</td>\n" ++
    lookaheads.flatMap (table.documentCell name) ++ "</tr>\n"

def documentHead (entry : Category × Text) : Text :=
  "<td>" ++ entry.2.markup ++ "</td>"

def document (table : Table) : Text :=
  let entries := table.registry.entries
  let lookaheads := entries.map Prod.fst ++ [Category.endOfInput]
  "<html><body>\n" ++
    "LL(1) table for " ++ table.grammar.name.markup ++ ", " ++ Text.ofNat table.size ++
    " entries<p>" ++
    "<table border=1 cellspacing=0 cellpadding=5>\n" ++
    "<tr bgcolor=#cccccc><td></td>\n" ++
    entries.flatMap documentHead ++
    "<td>$</td></tr>\n" ++
    table.names.flatMap (table.documentRow lookaheads) ++
    "</table></body></html>\n"

end ThreeAddress.Table

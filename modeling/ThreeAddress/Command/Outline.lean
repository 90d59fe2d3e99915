import ThreeAddress.Arena.Outline
import ThreeAddress.Syntax.Tree

/-! Views of syntax trees drawn line by line. -/

namespace ThreeAddress

/-- A node with the place it covers in the source, unless it covers nothing. -/
def SyntaxTree.caption (tree : SyntaxTree) : Text :=
  let span := SyntaxTree.span tree
  if span.length = 0 then tree.value.text else tree.value.text ++ " " ++ span.text

namespace Outline

/-- An entry of an outline: its level and its text. -/
abbrev Item := Nat × Text

/-- Whether no entry of the same level follows under the same parent. -/
def isLast (level : Nat) (rest : List Item) : Bool :=
  match rest.find? fun item => item.1 ≤ level with
  | none => true
  | some item => item.1 < level

/-- Whether the entries that follow start with a child. -/
def hasChildren (level : Nat) : List Item → Bool
  | [] => false
  | item :: _ => level < item.1

/-- The lines of some entries, given what stands before the entries of each level. -/
def lines (margins : List Text) : List Item → Text
  | [] => []
  | (level, caption) :: rest =>
    -- The margin of the children depends on whether a line has to go on past them.
    let margin := margins[level]?.getD []
    let last := isLast level rest
    let corner : Text := if last then "└" else "├"
    let branch : Text := if hasChildren level rest then "┬" else "─"
    let inner : Text := if last then "  " else "│ "
    margin ++ corner ++ "─" ++ branch ++ caption ++ "\n" ++
      lines (margins.take (level + 1) ++ [margin ++ inner]) rest

/-- The nodes of a view with their captions, in the order in which its cursor visits them. -/
def items (site : Site Label) : Except Fault (List Item) := do
  let visited ← (Edit.leveled.run { site with current := site.root }).1
  visited.mapM fun (id, depth) => return (depth, SyntaxTree.caption (← site.arena.tree id))

/-- A view line by line, and an empty line. -/
def draw (site : Site Label) : Except Fault Text := do
  return lines [[]] (← items site) ++ "\n"

end Outline

end ThreeAddress

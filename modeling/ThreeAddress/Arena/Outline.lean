import ThreeAddress.Arena.Cursor

/-! Visiting all nodes of a view with its cursor. -/

namespace ThreeAddress.Edit

variable {α : Type}

/--
What a visit of each child of the current node gives, from the child at a place on.

The children are counted anew before each visit.
The first number bounds the visits, of which there are not more than nodes.
-/
def childrenFrom (visit : Edit α (List (Nat × Nat))) : Nat → Nat → Edit α (List (Nat × Nat))
  | 0, _ => throw .cyclicTree
  | bound + 1, index => do
    let site ← get
    if index < (site.arena.childrenOf site.current).length then do
      -- The step down is undone before the next child is visited.
      let _ ← toChild index
      let items ← visit
      let _ ← toParent
      return items ++ (← childrenFrom visit bound (index + 1))
    else return []

/-- The current node and those below it, each with its depth. The cursor comes back to where it was. -/
def leveledFrom : Nat → Nat → Edit α (List (Nat × Nat))
  | 0, _ => throw .cyclicTree
  | bound + 1, depth => do
    let site ← get
    let below ← childrenFrom (leveledFrom bound (depth + 1)) (site.arena.size + 1) 0
    return (site.current, depth) :: below

/-- All nodes from the current one on, each with its depth, in the order of a walk. -/
def leveled : Edit α (List (Nat × Nat)) := do
  leveledFrom ((← get).arena.size + 1) 0

end ThreeAddress.Edit

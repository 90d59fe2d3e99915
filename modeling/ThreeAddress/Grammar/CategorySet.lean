import ThreeAddress.Fault
import ThreeAddress.Token

/-! Finite sets of token categories. -/

namespace ThreeAddress

/-- A set of token categories, as its members in ascending order. -/
abbrev CategorySet := List Category

namespace CategorySet

def insert (category : Category) : CategorySet → CategorySet
  | [] => [category]
  | other :: rest =>
    if category < other then category :: other :: rest
    else if category = other then other :: rest
    else other :: insert category rest

def union (left right : CategorySet) : CategorySet :=
  right.foldl (fun set category => insert category set) left

def proper (set : CategorySet) : CategorySet :=
  set.filter fun category => category != Category.epsilon

/-- Whether the empty text is a member. -/
def hasEpsilon (set : CategorySet) : Bool :=
  set.contains Category.epsilon

end CategorySet

abbrev CategorySets := List (Text × CategorySet)

namespace CategorySets

/-- Empty sets for the given non-terminals. -/
def start (names : List Text) : CategorySets :=
  names.map fun name => (name, [])

/-- The set of a non-terminal. A name without rules has no members. -/
def get (sets : CategorySets) (name : Text) : CategorySet :=
  (sets.lookup name).getD []

/-- The set of a non-terminal, the lack of which is a fault. -/
def find (sets : CategorySets) (name : Text) : Except Fault CategorySet :=
  match sets.lookup name with
  | some set => .ok set
  | none => .error .outOfBounds

def add (sets : CategorySets) (name : Text) (members : CategorySet) : CategorySets :=
  sets.map fun (other, set) =>
    if other == name then (other, CategorySet.union set members) else (other, set)

end CategorySets

end ThreeAddress

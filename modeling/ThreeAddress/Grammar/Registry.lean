import ThreeAddress.Token

/-! Names of token categories. -/

namespace ThreeAddress

/-- Why a category cannot be registered. -/
inductive RegistryError where
  | reserved (name : Text) (category : Category)
  | nameTaken (name : Text)
  | categoryTaken (category : Category)
deriving DecidableEq, Repr

def RegistryError.message : RegistryError → Text
  | reserved name category =>
    "token category " ++ name.quoted ++ " has reserved value " ++ Text.ofInt category
  | nameTaken name => "token category " ++ name.quoted ++ " defined twice"
  | categoryTaken category => "token category value " ++ Text.ofInt category ++ " defined twice"

abbrev NamedCategories := List (Category × Text)

def NamedCategories.put (category : Category) (name : Text) : NamedCategories → NamedCategories
  | [] => [(category, name)]
  | (other, otherName) :: rest =>
    if category < other then (category, name) :: (other, otherName) :: rest
    else if category = other then (category, name) :: rest
    else (other, otherName) :: put category name rest

/-- A registry gives every token category one name, and every name one category. -/
structure Registry where
  entries : NamedCategories := []
deriving DecidableEq, Repr

namespace Registry

def empty : Registry := {}

def category? (registry : Registry) (name : Text) : Option Category :=
  (registry.entries.find? fun entry => entry.2 == name).map Prod.fst

def registered? (registry : Registry) (category : Category) : Option Text :=
  registry.entries.lookup category

/-- The name of any category: reserved and unknown ones have a name too. -/
def nameOf (registry : Registry) (category : Category) : Text :=
  if category = Category.epsilon then "ε"
  else if category = Category.endOfInput then "$"
  else match registry.registered? category with
    | some name => name
    | none => "<" ++ Text.ofInt category ++ ">"

/-- Registers a category. Neither its name nor its value may be taken. -/
def add (registry : Registry) (category : Category) (name : Text) :
    Except RegistryError Registry :=
  -- Negative categories are kept for the empty text and the end of input.
  if category < 0 then .error (.reserved name category)
  else if (registry.category? name).isSome then .error (.nameTaken name)
  else if (registry.registered? category).isSome then .error (.categoryTaken category)
  else .ok { entries := registry.entries.put category name }

def ofList (categories : List (Category × Text)) : Except RegistryError Registry :=
  categories.foldlM (fun registry entry => registry.add entry.1 entry.2) empty

def size (registry : Registry) : Nat :=
  registry.entries.length

end Registry

end ThreeAddress

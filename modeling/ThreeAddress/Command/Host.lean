import ThreeAddress.Text.Basic

/-! What the program needs of its surroundings: a standard input and files. -/

namespace ThreeAddress

/-- Why a file cannot be used. -/
inductive FileProblem where
  | missing
  | isDirectory
  | notDirectory
  | denied
  | other (text : Text)
deriving DecidableEq, Repr

def FileProblem.text : FileProblem → Text
  | missing => "no such file or directory"
  | isDirectory => "is a directory"
  | notDirectory => "not a directory"
  | denied => "permission denied"
  | other text => text

/-- The files around the program and its standard input. -/
structure Host (m : Type → Type) where
  input : m Text
  load : Text → m (Except FileProblem Text)
  save : Text → Text → m (Except FileProblem Unit)

end ThreeAddress

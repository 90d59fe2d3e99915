import ThreeAddress.Command.Host

/-! A host that is a value: one directory of plain files. -/

namespace ThreeAddress

/-- The files of a directory, by name. The first entry of a name counts. -/
structure Directory where
  files : List (Text × Text) := []
deriving DecidableEq, Repr

namespace Directory

def file? (directory : Directory) (name : Text) : Option Text :=
  directory.files.lookup name

def put (directory : Directory) (name content : Text) : Directory :=
  { files := (name, content) :: directory.files }

def steps (path : Text) : List Text :=
  path.foldr
    (fun byte steps =>
      match steps with
      | [] => [[byte]]
      | first :: rest => if byte = 0x2F then [] :: first :: rest else (byte :: first) :: rest)
    [[]]

/-- The file name that the steps of a path lead to. No step leads below a file. -/
def follow (directory : Directory) : List Text → Except FileProblem Text
  | [] => .error .isDirectory
  | step :: rest =>
    -- Empty steps and points stay where they are.
    if step.isEmpty || step = "." then directory.follow rest
    else if rest.isEmpty then if step = ".." then .error .isDirectory else .ok step
    else if (directory.file? step).isSome then .error .notDirectory
    else .error .missing

/-- The file name at a path. The directory is all there is, so an absolute path leads nowhere. -/
def locate (directory : Directory) (path : Text) : Except FileProblem Text :=
  if path.isEmpty then .error .missing
  else if path.head? = some 0x2F then
    if path.all fun byte => byte = 0x2F then .error .isDirectory else .error .missing
  else directory.follow (steps path)

def load (directory : Directory) (path : Text) : Except FileProblem Text := do
  let name ← directory.locate path
  match directory.file? name with
  | some content => return content
  | none => throw .missing

def save (directory : Directory) (path content : Text) : Except FileProblem Directory := do
  return directory.put (← directory.locate path) content

/-- The host of a program that runs in a directory with a given standard input. -/
def host (input : Text) : Host (StateM Directory) where
  input := return input
  load path := do
    return (← get).load path
  save path content := do
    match (← get).save path content with
    | .ok directory =>
      set directory
      return .ok ()
    | .error problem => return .error problem

@[simp] theorem file?_put_self (directory : Directory) (name content : Text) :
    (directory.put name content).file? name = some content := by
  simp [put, file?]

theorem file?_put_of_ne (directory : Directory) {name other : Text} (content : Text)
    (distinct : other ≠ name) :
    (directory.put name content).file? other = directory.file? other := by
  simp [put, file?, List.lookup_cons, beq_eq_false_iff_ne.2 distinct]

end Directory

end ThreeAddress

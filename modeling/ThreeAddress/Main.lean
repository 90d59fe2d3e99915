import ThreeAddress.Command.Run

/-! The program. -/

namespace ThreeAddress

private def problemOf : IO.Error → FileProblem
  | .noFileOrDirectory .. => .missing
  | .permissionDenied .. => .denied
  | .inappropriateType .. => .isDirectory
  | error => .other (Text.ofString (toString error))

private def pathString (path : Text) : String :=
  path.toString?.getD ""

private def machine : Host IO where
  input := do
    let stdin ← IO.getStdin
    return (← stdin.readBinToEnd).data.toList
  load path := do
    try
      return .ok (← IO.FS.readBinFile (pathString path)).data.toList
    catch error => return .error (problemOf error)
  save path text := do
    try
      IO.FS.writeBinFile (pathString path) ⟨text.toArray⟩
      return .ok ()
    catch error => return .error (problemOf error)

/-- Runs the program, prints what it leaves, and gives back its exit code. -/
def execute (words : List String) : IO UInt32 := do
  let outcome ← Command.run machine (words.map Text.ofString)
  let stdout ← IO.getStdout
  stdout.write ⟨outcome.output.toArray⟩
  stdout.flush
  if let some error := outcome.error? then
    let stderr ← IO.getStderr
    stderr.write ⟨(error ++ "\n" : Text).toArray⟩
  return outcome.code.toUInt32

end ThreeAddress

def main (words : List String) : IO UInt32 :=
  ThreeAddress.execute words

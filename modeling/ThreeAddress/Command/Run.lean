import ThreeAddress.Command.Grid
import ThreeAddress.Command.Host
import ThreeAddress.Command.Outline
import ThreeAddress.Command.Usage
import ThreeAddress.Compiler
import ThreeAddress.Table.Export

/-! The commands of the program. -/

namespace ThreeAddress

/-- What the program leaves: what it printed, and an error or the way it stopped. -/
inductive Outcome where
  | success (output : Text)
  | failure (error : Text)
  | halted (output : Text) (error : Text)
deriving DecidableEq, Repr

namespace Outcome

def code : Outcome → Nat
  | success _ => 0
  | failure _ => 1
  | halted .. => 2

def output : Outcome → Text
  | success output => output
  | failure _ => []
  | halted output _ => output

def error? : Outcome → Option Text
  | success _ => none
  | failure error => some error
  | halted _ error => some error

end Outcome

namespace Command

def usage : Text :=
  "usage: sfaac compile [file] [-o path]\n" ++
  "       sfaac tree [file] [--ast] [--sexpr]\n" ++
  "       sfaac table [--html]\n" ++
  "       sfaac repl\n"

/-- The outcome of a failure: a fault stops the program. -/
def ofFailure (output : Text) : Failure → Outcome
  | .fault cause => .halted output cause.message
  | cause => .failure cause.message

/-- The source text: that of a file, or the standard input. -/
def readSource {m : Type → Type} [Monad m] (host : Host m) (words : List Text) :
    m (Except Text Text) := do
  match words with
  | [] => return .ok (← host.input)
  | path :: _ =>
    if path = "-" then return .ok (← host.input)
    else
      match ← host.load path with
      | .ok text => return .ok text
      | .error .isDirectory => return .error ("read " ++ path ++ ": " ++ FileProblem.isDirectory.text)
      | .error problem => return .error ("open " ++ path ++ ": " ++ problem.text)

def compile {m : Type → Type} [Monad m] (host : Host m) (compiler : Compiler) (halting : Bool)
    (settings : Usage.Settings) : m Outcome := do
  match ← readSource host settings.words with
  | .error error => return .failure error
  | .ok text =>
    match compiler.compile text halting with
    | .error cause => return ofFailure [] cause
    | .ok compilation =>
      -- Nothing is written before compilation has succeeded.
      let path := (settings.value? "output").getD []
      if path.isEmpty then return .success compilation.listing
      else
        match ← host.save path compilation.listing with
        | .ok () => return .success []
        | .error problem =>
          return .failure ("cannot create output file: open " ++ path ++ ": " ++ problem.text)

/-- What is printed of a parse tree, which is normalized in place if that is asked for. -/
def printed (settings : Usage.Settings) (parsed : Site Label) : Except Fault Text := do
  let (result, view) :=
    if settings.isOn "ast" then Language.normalizer.normalizeView.run parsed else (.ok (), parsed)
  result
  if settings.isOn "sexpr" then return SyntaxTree.sexpr (← view.arena.tree view.root) ++ "\n"
  else Outline.draw view

def tree {m : Type → Type} [Monad m] (host : Host m) (compiler : Compiler) (halting : Bool)
    (settings : Usage.Settings) : m Outcome := do
  match ← readSource host settings.words with
  | .error error => return .failure error
  | .ok text =>
    match compiler.parseView text halting with
    | .error cause => return ofFailure [] cause
    | .ok parsed =>
      match printed settings parsed with
      | .error cause => return .halted [] cause.message
      | .ok output => return .success output

/-- Shows the sets and the parsing table of the grammar. -/
def table (compiler : Compiler) (settings : Usage.Settings) : Outcome :=
  if settings.isOn "html" then .success compiler.table.document
  else .success (compiler.table.report compiler.analysis)

/-- The lines of a text. What follows the last line end counts if there is anything. -/
def lines (text : Text) : List Text :=
  match text.foldr
    (fun byte (current, others) =>
      if byte = 0x0A then ([], current :: others) else (byte :: current, others))
    (([], []) : Text × List Text) with
  | (first, others) =>
    let all := first :: others
    if all.getLast? = some [] then all.dropLast else all

def programs : List Text → List Text → List (List Text)
  | collected, [] => if collected.isEmpty then [] else [collected]
  | collected, line :: rest =>
    -- Several blank lines in a row separate no more than one does.
    if line.trim.isEmpty then
      if collected.isEmpty then programs [] rest else collected :: programs [] rest
    else programs (collected ++ [line]) rest

/-- Compiles one program after the other and shows what comes of each. -/
def replay (compiler : Compiler) (halting : Bool) (output : Text) : List (List Text) → Outcome
  | [] => .success output
  | lines :: rest =>
    match compiler.compile (Text.join "\n" lines ++ "\n") halting with
    | .ok compilation =>
      replay compiler halting
        (output ++ "   >>  " ++ Text.ofNat compilation.code.length ++ " instructions\n" ++
          compilation.listing ++ "\n") rest
    | .error (.fault cause) => .halted output cause.message
    | .error cause => replay compiler halting (output ++ "   Error  " ++ cause.message ++ "\n") rest

def repl {m : Type → Type} [Monad m] (host : Host m) (compiler : Compiler) (halting : Bool) :
    m Outcome := do
  return replay compiler halting "   >>  Welcome to the SFAA compiler\n"
    (programs [] (lines (← host.input)))

def run {m : Type → Type} [Monad m] (host : Host m) (words : List Text) : m Outcome := do
  match Usage.request words with
  | .error problem => return .failure problem.message
  | .ok .help => return .success usage
  | .ok (.run command settings) =>
    match Compiler.standard with
    | .error cause => return .failure cause.message
    | .ok compiler =>
      let halting := settings.isOn "panic-on-mismatch"
      match command with
      | .compile => compile host compiler halting settings
      | .tree => tree host compiler halting settings
      | .table => return table compiler settings
      | .repl => repl host compiler halting

end Command

end ThreeAddress

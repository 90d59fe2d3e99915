import ThreeAddress.Text.Lowercase
import ThreeAddress.Text.Quoted

/-!
How the program is called.

The first word that is no flag names a command.
Flags may stand anywhere, and those of the program are known to every command.
-/

namespace ThreeAddress.Usage

def program : Text := "sfaac"

/-- What the program can be asked to do. -/
inductive Command where
  | compile
  | repl
  | table
  | tree
deriving DecidableEq, Repr

namespace Command

def name : Command → Text
  | compile => "compile"
  | repl => "repl"
  | table => "table"
  | tree => "tree"

def all : List Command :=
  [compile, repl, table, tree]

def takesFile : Command → Bool
  | compile | tree => true
  | repl | table => false

end Command

/-- A flag: its name, its letter, and whether it is a switch or takes a text. -/
structure Flag where
  name : Text
  letter : Option UInt8 := none
  isSwitch : Bool := false
deriving DecidableEq, Repr

def programFlags : List Flag :=
  [{ name := "trace", letter := some 't'.toUInt8 }, { name := "panic-on-mismatch", isSwitch := true },
    { name := "trace-to" }]

def helpFlag : Flag :=
  { name := "help", letter := some 'h'.toUInt8, isSwitch := true }

def Command.flags : Command → List Flag
  | compile => [{ name := "output", letter := some 'o'.toUInt8 }]
  | tree =>
    [{ name := "ast", letter := some 'a'.toUInt8, isSwitch := true },
      { name := "sexpr", letter := some 's'.toUInt8, isSwitch := true }]
  | table => [{ name := "html", isSwitch := true }]
  | repl => []

/-- Why a call cannot be understood. -/
inductive Problem where
  /-- A word that names no command, and the commands that it may have meant. -/
  | unknownCommand (word : Text) (path : Text) (alternatives : List Text)
  | unknownFlag (name : Text)
  | unknownLetter (letter : UInt8) (letters : Text)
  | missingValue (word : Text)
  | missingLetterValue (letter : UInt8) (letters : Text)
  | malformedFlag (word : Text)
  | malformedSwitch (value : Text) (flag : Flag)
  | tooManyFiles (count : Nat)
deriving DecidableEq, Repr

private def quotedLetter (letter : UInt8) : Text :=
  Text.quotedChar (Char.ofNat letter.toNat)

private def flagText (flag : Flag) : Text :=
  match flag.letter with
  | some letter => "-" ++ [letter] ++ ", --" ++ flag.name
  | none => "--" ++ flag.name

def Problem.message : Problem → Text
  | unknownCommand word path alternatives =>
    let what : Text := "unknown command " ++ word.quoted ++ " for " ++ path.quoted
    if alternatives.isEmpty then what
    else
      what ++ "\n\nDid you mean this?\n" ++
        alternatives.flatMap fun (name : Text) => ("\t" ++ name ++ "\n" : Text)
  | unknownFlag name => "unknown flag: --" ++ name
  | unknownLetter letter letters =>
    "unknown shorthand flag: " ++ quotedLetter letter ++ " in -" ++ letters
  | missingValue word => "flag needs an argument: " ++ word
  | missingLetterValue letter letters =>
    "flag needs an argument: " ++ quotedLetter letter ++ " in -" ++ letters
  | malformedFlag word => "bad flag syntax: " ++ word
  | malformedSwitch value flag =>
    "invalid argument " ++ value.quoted ++ " for " ++ (flagText flag).quoted ++
      " flag: strconv.ParseBool: parsing " ++ value.quoted ++ ": invalid syntax"
  | tooManyFiles count => "accepts at most 1 arg(s), received " ++ Text.ofNat count

/-- What a call sets: values of flags, later ones last, and the other words in order. -/
structure Settings where
  values : List (Text × Text) := []
  words : List Text := []
deriving DecidableEq, Repr

namespace Settings

def value? (settings : Settings) (flag : Text) : Option Text :=
  settings.values.reverse.lookup flag

def trueTexts : List Text :=
  ["1", "t", "T", "TRUE", "true", "True"]

def falseTexts : List Text :=
  ["0", "f", "F", "FALSE", "false", "False"]

def isOn (settings : Settings) (flag : Text) : Bool :=
  (settings.value? flag).any fun value => trueTexts.contains value

/-- Sets a flag. A switch needs a truth value. -/
def put (settings : Settings) (flag : Flag) (value : Text) : Except Problem Settings :=
  if flag.isSwitch && !(trueTexts ++ falseTexts).contains value then
    .error (.malformedSwitch value flag)
  else .ok { settings with values := settings.values ++ [(flag.name, value)] }

end Settings

def named? (flags : List Flag) (name : Text) : Option Flag :=
  flags.find? fun flag => flag.name == name

def lettered? (flags : List Flag) (letter : UInt8) : Option Flag :=
  flags.find? fun flag => flag.letter == some letter

/-- A word as a flag parser sees it. -/
inductive WordShape where
  | plain
  /-- Behind this word there are no flags. -/
  | stop
  | long (name : Text)
  | short (letters : Text)
deriving DecidableEq, Repr

/-- The shape of a word. A single dash is not a flag. -/
def WordShape.of : Text → WordShape
  | [0x2D, 0x2D] => stop
  | 0x2D :: 0x2D :: name => long name
  | 0x2D :: letter :: letters => short (letter :: letters)
  | _ => plain

/-- A text up to an equals sign, and what stands behind it. -/
def splitValue (text : Text) : Text × Option Text :=
  match text.dropWhile fun byte => byte != 0x3D with
  | [] => (text, none)
  | _ :: value => (text.takeWhile fun byte => byte != 0x3D, some value)

/--
Sets the flags of some letters in a row.

A flag that takes a text takes the rest of the word, and if nothing is left the next word: then the flag is given back.
-/
def putLetters (flags : List Flag) (settings : Settings) :
    Text → Except Problem (Settings × Option (Flag × UInt8))
  | [] => .ok (settings, none)
  | letter :: rest =>
    if Text.startsWith (letter :: rest) "test." then .ok (settings, none)
    else
      match lettered? flags letter with
      | none => .error (.unknownLetter letter (letter :: rest))
      | some flag =>
        -- An equals sign with nothing behind it belongs to the letters.
        match rest with
        | 0x3D :: first :: value => do
          return (← settings.put flag (first :: value), none)
        | _ =>
          if flag.isSwitch then do putLetters flags (← settings.put flag "true") rest
          else if rest.isEmpty then .ok (settings, some (flag, letter))
          else do return (← settings.put flag rest, none)

def readWords (flags : List Flag) : Settings → List Text → Except Problem Settings
  | settings, [] => .ok settings
  | settings, word :: rest =>
    match WordShape.of word with
    | .plain => readWords flags { settings with words := settings.words ++ [word] } rest
    | .stop => .ok { settings with words := settings.words ++ rest }
    | .long name =>
      -- A name needs a first character of its own.
      if name.head? = some 0x2D || name.head? = some 0x3D then .error (.malformedFlag word)
      else
        let (name, value) := splitValue name
        match named? flags name, value with
        | none, _ => .error (.unknownFlag name)
        | some flag, some value => do readWords flags (← settings.put flag value) rest
        | some flag, none =>
          if flag.isSwitch then do readWords flags (← settings.put flag "true") rest
          else
            match rest with
            | [] => .error (.missingValue word)
            | value :: others => do readWords flags (← settings.put flag value) others
    | .short letters => do
      match ← putLetters flags settings letters with
      | (settings, none) => readWords flags settings rest
      | (settings, some (flag, letter)) =>
        match rest with
        | [] => .error (.missingLetterValue letter [letter])
        | value :: others => do readWords flags (← settings.put flag value) others

/-- Whether a flag without a value takes the next word as its value, as far as the program's own flags tell. -/
private def takesNext (word : Text) : Bool :=
  !word.contains 0x3D &&
    match WordShape.of word with
    | .long name => !(named? programFlags name).any Flag.isSwitch
    | .short [letter] => !(lettered? programFlags letter).any Flag.isSwitch
    | _ => false

def plainWords : List Text → List Text
  | [] => []
  | word :: rest =>
    if WordShape.of word = .stop then []
    else if takesNext word then
      -- Before the command is known, an unknown flag counts as one that takes a value.
      match rest with
      | _ :: second :: others => plainWords (second :: others)
      | _ => []
    else if WordShape.of word = .plain && !word.isEmpty && word != "-" then
      word :: plainWords rest
    else plainWords rest

/-- The number of insertions, deletions and replacements that lead from one text to the other. -/
def distance (left right : Text) : Nat :=
  let first := List.range (right.length + 1)
  let last := left.foldl
    (fun row byte =>
      let start := row.headD 0 + 1
      let cells := (right.zip (row.zip row.tail)).foldl
        (fun (cells, previous) (other, diagonal, above) =>
          let cell := if byte = other then diagonal
            else min (min diagonal above) previous + 1
          (cells ++ [cell], cell))
        ([start], start)
      cells.1)
    first
  last.getLastD 0

private def completionName : Text := "completion"

/-- The commands that a word may have meant: those that differ little, and those that it starts. -/
def alternatives (word : Text) : List Text :=
  (Command.all.map Command.name ++ [completionName]).filter fun name =>
    distance word.toLower name ≤ 2 || name.startsWith word.toLower

/-- What a call asks for. -/
inductive Request where
  | help
  | run (command : Command) (settings : Settings)
deriving DecidableEq, Repr

def commandRequest (command : Command) (words : List Text) : Except Problem Request := do
  -- Flags are read in full before help is given, so a wrong flag is an error also then.
  let settings ← readWords (helpFlag :: programFlags ++ command.flags) {} words
  if settings.isOn helpFlag.name then return .help
  else if command.takesFile then
    if settings.words.length ≤ 1 then return .run command settings
    else .error (.tooManyFiles settings.words.length)
  else
    match settings.words with
    | [] => return .run command settings
    | word :: _ => .error (.unknownCommand word (program ++ " " ++ command.name) [])

def request (words : List Text) : Except Problem Request :=
  match plainWords words with
  | [] => do
    let _ ← readWords (helpFlag :: programFlags) {} words
    return .help
  | word :: _ =>
    match Command.all.find? fun command => command.name == word with
    | some command => commandRequest command (words.erase word)
    | none =>
      if word = helpFlag.name || word = completionName then return .help
      else .error (.unknownCommand word program (alternatives word))

end ThreeAddress.Usage

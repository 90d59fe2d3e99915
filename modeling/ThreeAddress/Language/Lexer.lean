import ThreeAddress.Language.Category
import ThreeAddress.Lexicon.Reading
import ThreeAddress.Symbols.Environment

/-!
The tokens of a program.

While a program is read, its declarations enter the symbol table and its literals the constant table.
Whether a name is declared or used shows in the two tokens before it.
-/

namespace ThreeAddress.Language

/-- The kinds of words. -/
inductive WordKind where
  | blank
  | name
  | number
  | character
  | fixed (category : Category)
deriving DecidableEq, Repr

def commentRegex : Regex :=
  .seq (Regex.ofText "//") (.seq (.star (.oneOf (ByteClass.ofChars ['\n']).others))
    (Regex.optional (Regex.ofText "\n")))

def blankRegex : Regex :=
  Regex.plus (.oneOf (ByteClass.ofChars [' ', '\t', '\n', '\r']))

def letters : ByteClass :=
  (ByteClass.between 'a' 'z').also (ByteClass.between 'A' 'Z')

def digits : ByteClass :=
  ByteClass.between '0' '9'

def nameRegex : Regex :=
  .seq (Regex.ofText "#") (.seq (.oneOf letters)
    (.star (.oneOf ((letters.also digits).also (ByteClass.ofChars ['_'])))))

def numberRegex : Regex :=
  .seq (.oneOf digits) (.star (.oneOf (digits.also (ByteClass.ofChars ['.']))))

/-- A character literal is anything between two quotes. -/
def characterRegex : Regex :=
  .seq (Regex.ofText "'") (.seq (.star (.oneOf (ByteClass.ofChars ['\x27']).others))
    (Regex.ofText "'"))

/-- The rules for words that are spelled in one way, numbered on from a category. -/
def fixedRules (first : Nat) (words : List Text) : List (Regex × WordKind) :=
  words.zipIdx.map fun (word, index) => (Regex.ofText word, .fixed (first + index : Nat))

/-- The rules for all words: keywords, then words of open classes, then marks. -/
def lexicalRules : List (Regex × WordKind) :=
  fixedRules 3 keywords ++
    [(commentRegex, .blank), (blankRegex, .blank), (nameRegex, .name), (numberRegex, .number),
      (characterRegex, .character)] ++
    fixedRules 21 marks

def lexicon : Lexicon WordKind :=
  { rules := lexicalRules, proper := by decide }

def mainScope : Text := "main"

/-- What reading a program has to remember. -/
structure LexerState where
  environment : Environment := Environment.empty
  previous : Option Token := none
  beforePrevious : Option Token := none
  /-- The function whose header or body is being read. -/
  function : Option Handle := none
  /-- Whether the parameters of a function may follow. -/
  inParams : Bool := false
  /-- The number of braces open in the function. -/
  depth : Int := 0
deriving Repr

/-- A step of reading a program. A fault keeps the changes made before it. -/
abbrev Lex (α : Type) := ExceptT Failure (StateM LexerState) α

namespace Lex

def modifySymbols (change : SymbolTable → SymbolTable) : Lex Unit :=
  modify fun state =>
    { state with environment.symbols := change state.environment.symbols }

/-- Runs an operation of the symbol table that may find an error. -/
def symbols {α : Type} (operation : SymbolTable → Except Diagnostic (α × SymbolTable)) :
    Lex α := do
  match operation (← get).environment.symbols with
  | .error error => throw (.diagnostic error)
  | .ok (result, table) => do
    modifySymbols fun _ => table
    return result

def intern (text : Text) (isCharacter : Bool) : Lex Handle := do
  match (← get).environment.constants.intern text isCharacter with
  | .error error => throw (.diagnostic error)
  | .ok (handle, constants) => do
    modify fun state => { state with environment.constants := constants }
    return handle

def pop : Lex Unit := do
  match (← get).environment.symbols.pop with
  | .error cause => throw (.fault cause)
  | .ok (_, table) => modifySymbols fun _ => table

def declareFunction (name : Text) (returns : ValueType) : Lex Handle := do
  -- The name is global, and the scope opened behind it holds the parameters and the whole body.
  let handle ← symbols fun table => table.declareFunction name returns
  modifySymbols fun table => table.openBody handle name
  modify fun state => { state with function := some handle, inParams := true, depth := 0 }
  return handle

/-- Declares a parameter of the function being read. Without one its name is declared all the same. -/
def declareParameter (name : Text) (type : ValueType) : Lex Handle := do
  match (← get).function with
  | some function => symbols fun table => table.addParameter function name type
  | none => do
    let _ ← symbols fun table => table.declareParameter name type
    throw (.fault .outOfBounds)

def resolve (name : Text) : Lex Handle :=
  symbols fun table => do return (← table.resolve name, table)

/-- Declares or resolves a name: behind a type it is declared, unless nothing there calls for a declaration. -/
def name (name : Text) : Lex Handle := do
  let state ← get
  -- The token before must be a type, and the one before that tells what is declared.
  match state.previous with
  | none => resolve name
  | some typeToken =>
    if isTypeWord typeToken.category then
      let type := (ValueType.ofName? typeToken.lexeme).getD .untyped
      let opening := state.beforePrevious.map Token.category
      if opening = some variableWord then symbols fun table => table.declareVariable name type
      else if opening = some functionWord then declareFunction name type
      else if state.inParams then declareParameter name type
      else resolve name
    else resolve name

def structureWord (category : Category) : Lex Unit := do
  let state ← get
  if category = startWord then modifySymbols fun table => table.push mainScope
  else if category = endWord then
    -- A closing word without an opening one leaves the scopes alone.
    if state.environment.symbols.scopeName = mainScope then pop
  else if category = closeParen then set { state with inParams := false }
  else if category = openBrace then
    if state.function.isSome then set { state with depth := state.depth + 1 }
  else if category = closeBrace then
    if state.function.isSome then
      set { state with depth := state.depth - 1 }
      -- The outermost brace of a function ends it.
      if state.depth = 1 then
        pop
        modify fun state => { state with function := none }

end Lex

def LexerState.remember (state : LexerState) (token : Token) : LexerState :=
  { state with previous := some token, beforePrevious := state.previous }

/-- A token and the errors found with it, where an error leaves the token without a handle. -/
def finish (token : Token) (result : Except Failure Handle) (state : LexerState) :
    PieceOutcome × LexerState :=
  match result with
  | .ok handle =>
    let token := { token with handle }
    (.token token [], state.remember token)
  -- A name that cannot be declared or resolved is still a token, so that parsing can go on.
  | .error (.diagnostic error) => (.token token [error], state.remember token)
  | .error (.fault cause) => (.fault cause, state)
  | .error _ => (.token token [], state.remember token)

def literal (token : Token) (text : Text) (isCharacter : Bool) (state : LexerState) :
    PieceOutcome × LexerState :=
  match (Lex.intern text isCharacter).run state with
  | (.error (.diagnostic error), state) => (.rejected error, state)
  | (result, state) => finish token result state

def interpret (piece : Piece WordKind) (state : LexerState) : PieceOutcome × LexerState :=
  let token (category : Category) : Token :=
    { category, lexeme := piece.text, span := piece.span }
  match piece.kind with
  | none => (.rejected piece.undefined, state)
  | some .blank => (.skipped, state)
  | some .name =>
    let (result, state) := (Lex.name piece.text).run state
    finish (token identifier) result state
  | some .number => literal (token constant) piece.text false state
  | some .character => literal (token constant) (piece.text.drop 1).dropLast true state
  | some (.fixed category) =>
    -- The truth values are keywords and constants at once.
    let action : Lex Handle :=
      if category = trueWord || category = falseWord then Lex.intern piece.text false
      else do
        Lex.structureWord category
        return Handle.absent
    let (result, state) := action.run state
    finish (token category) result state

/-- The tokens of a program, and what reading all of them leaves behind. -/
def lexFrom (environment : Environment) (text : Text) : TokenSource × LexerState :=
  let last := Token.atEnd text.length
  let (readings, state) := readPieces interpret last [] (lexicon.pieces text) { environment }
  ({ readings, last }, state)

end ThreeAddress.Language

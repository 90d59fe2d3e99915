import ThreeAddress.Ebnf.Literal
import ThreeAddress.Ebnf.Token

/-!
EBNF expressions and productions, and how they are read from tokens.

Reading goes on behind an error and collects all of them: a token that should be there is skipped in any case.
-/

namespace ThreeAddress.Ebnf

/-- A part of a sequence. Expressions within it are alternatives of sequences. -/
inductive Term where
  | name (name : Text)
  | token (name : Text)
  | group (body : List (List Term))
  | option (body : List (List Term))
  | repetition (body : List (List Term))
  | range
deriving Repr

/-- The right-hand side of a production: alternatives, each a sequence of terms. -/
abbrev Expression := List (List Term)

/-- A production. Without an expression it derives the empty text only. -/
structure Production where
  name : Text
  expression : Option Expression
deriving Repr

/-- The productions read so far, the tokens still to be read, and the errors. -/
structure Reading where
  source : Text
  tokens : List Token
  errors : List Text := []
deriving Repr

namespace Reading

/-- The token to be read next. The last token is never used up. -/
def current (reading : Reading) : Token :=
  reading.tokens.headD ⟨.endOfText, [], 0, 0⟩

def advance (reading : Reading) : Reading :=
  match reading.tokens with
  | _ :: second :: rest => { reading with tokens := second :: rest }
  | _ => reading

def report (reading : Reading) (line column : Nat) (message : Text) : Reading :=
  let source : Text := if reading.source.isEmpty then "<input>" else reading.source
  let place : Text := if line = 0 then source
    else source ++ ":" ++ Text.ofNat line ++ ":" ++ Text.ofNat column
  { reading with errors := reading.errors ++ [place ++ ": " ++ message] }

/-- The error that something else was expected at the current token. -/
def reportExpected (reading : Reading) (what : Text) : Reading :=
  let found := reading.current
  let shown : Text := match found.kind with
    | .symbol _ => found.kind.text
    | kind => kind.text ++ " " ++ found.text
  reading.report found.line found.column ("expected \"" ++ what ++ "\", found " ++ shown)

/-- Skips the current token, which should be of the given kind. -/
def expect (reading : Reading) (kind : TokenKind) : Reading :=
  -- Skipping also a wrong token keeps reading from standing still.
  let checked := if reading.current.kind = kind then reading
    else reading.reportExpected kind.text
  checked.advance

end Reading

private def readToken (reading : Reading) : Term × Reading :=
  if reading.current.kind = .string then
    (.token (literalText reading.current.text), reading.advance)
  else (.token [], reading.expect .string)

mutual

/-- Reads a term, where there is one. -/
private def readTerm : Nat → Reading → Option Term × Reading
  | 0, reading => (none, reading)
  | steps + 1, reading =>
    match reading.current.kind with
    | .identifier => (some (.name reading.current.text), reading.advance)
    | .string =>
      let (token, behind) := readToken reading
      if behind.current.kind = .symbol '…' then
        let (_, behind) := readToken behind.advance
        (some .range, behind)
      else (some token, behind)
    | .symbol '(' =>
      let (body, behind) := readExpression steps reading.advance
      (some (.group body), behind.expect (.symbol ')'))
    | .symbol '[' =>
      let (body, behind) := readExpression steps reading.advance
      (some (.option body), behind.expect (.symbol ']'))
    | .symbol '\x7b' =>
      let (body, behind) := readExpression steps reading.advance
      (some (.repetition body), behind.expect (.symbol '\x7d'))
    | _ => (none, reading)

private def readTerms : Nat → Reading → List Term × Reading
  | 0, reading => ([], reading)
  | steps + 1, reading =>
    match readTerm steps reading with
    | (none, behind) => ([], behind)
    | (some term, behind) =>
      let (terms, behind) := readTerms steps behind
      (term :: terms, behind)

/-- Reads an expression: sequences separated by bars. A sequence needs a term. -/
private def readExpression : Nat → Reading → Expression × Reading
  | 0, reading => ([], reading)
  | steps + 1, reading =>
    let (terms, behind) := readTerms steps reading
    let behind := if terms.isEmpty then behind.reportExpected "term" else behind
    if behind.current.kind = .symbol '|' then
      let (branches, behind) := readExpression steps behind.advance
      (terms :: branches, behind)
    else ([terms], behind)

end

private def Reading.steps (reading : Reading) : Nat :=
  4 * reading.tokens.length + 4

private def readProduction (reading : Reading) : Production × Reading :=
  let name := reading.current.text
  let opened := (reading.expect .identifier).expect (.symbol '=')
  if opened.current.kind = .symbol '.' then
    (⟨name, none⟩, opened.expect (.symbol '.'))
  else
    let (expression, behind) := readExpression opened.steps opened
    (⟨name, some expression⟩, behind.expect (.symbol '.'))

/-- Reads productions up to the end of the text. Of two with one name the first stays. -/
private def readProductions : Nat → List Production → Reading → List Production × Reading
  | 0, productions, reading => (productions, reading)
  | steps + 1, productions, reading =>
    if reading.current.kind = .endOfText then (productions, reading)
    else
      let place := reading.current
      let (production, behind) := readProduction reading
      if productions.any fun other => other.name == production.name then
        readProductions steps productions
          (behind.report place.line place.column (production.name ++ " declared already"))
      else readProductions steps (productions ++ [production]) behind

/-- The productions of a text in order, and the errors found in it. The source is named in errors. -/
def read (source text : Text) : List Production × List Text :=
  let reading : Reading := { source, tokens := tokens text }
  let (productions, behind) := readProductions reading.tokens.length [] reading
  (productions, behind.errors)

end ThreeAddress.Ebnf

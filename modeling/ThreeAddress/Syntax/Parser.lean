import ThreeAddress.Arena.Basic
import ThreeAddress.Failure
import ThreeAddress.Syntax.Tree
import ThreeAddress.Table.Basic

/-!
Predictive parsing.

A parser derives the tokens of a source from the start symbol, guided by a table with one token of lookahead.
It keeps the symbols still to be derived on a stack, and makes the parse tree in an arena as it goes.
-/

namespace ThreeAddress

/-- A parsing table, and whether a syntax error is to stop the program. -/
structure Parser where
  table : Table
  halting : Bool := false

/-- The symbols still to be derived, the next one first, each with the number of its node. -/
abbrev Stack := List (Nat × Symbol)

/-- Where a parse stands: the token looked at, the source behind it, and the nodes made so far. -/
structure ParseState where
  token : Token
  source : TokenSource
  arena : Arena Label
deriving Repr

namespace Parser

/-- A parser for a table, which must be there. -/
def ofTable? : Option Table → Except Fault Parser
  | some table => .ok { table }
  | none => .error .missingTable

/-- Reads a token. A fault comes before all errors, and of several errors the first counts. -/
def request (source : TokenSource) : Except Failure (Token × TokenSource) :=
  match source.next with
  | ({ outcome := .error cause, .. }, _) => .error (.fault cause)
  | ({ errors := error :: _, .. }, _) => .error (.diagnostic error)
  | ({ outcome := .ok token, errors := [] }, rest) => .ok (token, rest)

def found (parser : Parser) (token : Token) : Text :=
  if token.isEnd then "end of input"
  else token.lexeme.quoted ++ " (" ++ parser.table.registry.nameOf token.category ++ ")"

def mismatch (parser : Parser) (kind : Mismatch) (expected : Text) (token : Token) : Failure :=
  let error : Diagnostic := .grammarMismatch kind expected (parser.found token) token.span
  if parser.halting then .fault (.mismatch error) else .diagnostic error

/-- The failure for a non-terminal with a blank cell. -/
def refusal (parser : Parser) (name : Text) (token : Token) : Failure :=
  parser.mismatch (if token.isEnd then .leftoverStack else .noProduction) name token

/--
One step: the symbol on top is matched with the current token, or gives way to the body of its production.

A token is put into the node of its terminal, and a body makes a child for each of its symbols.
-/
def step (parser : Parser) : Stack → ParseState → Except Failure (Stack × ParseState)
  | [], state => .ok ([], state)
  | (id, .terminal name category) :: rest, state =>
    -- The end of input is told apart from a wrong token, since it has no text to show.
    if state.token.isEnd then .error (parser.mismatch .leftoverStack name state.token)
    else if state.token.category ≠ category then
      .error (parser.mismatch .unexpectedToken name state.token)
    else do
      let label : Label := { symbol := .terminal name category, token := some state.token }
      -- The next token is read at once, so that its errors come before anything it could be matched with.
      let (token, source) ← request state.source
      return (rest, { token, source, arena := state.arena.setValue id label })
  | (id, .nonterminal name) :: rest, state =>
    -- One token of lookahead decides, and a blank cell means that no derivation goes on with it.
    match parser.table.production? name state.token.category with
    | none => .error (parser.refusal name state.token)
    | some production =>
      -- A vanishing non-terminal stays in the tree as a node without children.
      if production.isEpsilon then .ok (rest, state)
      else
        let (ids, arena) := state.arena.appendAll id (production.rhs.map fun symbol => { symbol })
        .ok (ids.zip production.rhs ++ rest, { state with arena })

/-- Steps until the stack is empty. The first argument bounds their number. -/
def run (parser : Parser) : Nat → Stack → ParseState → Except Failure ParseState
  | _, [], state => .ok state
  | 0, _ :: _, _ => .error .endless
  | bound + 1, entry :: rest, state => do
    let (stack, state) ← parser.step (entry :: rest) state
    parser.run bound stack state

/--
The depth that no tree can reach.

On the way down from the root a non-terminal cannot stand twice before the same token, since what follows would repeat without end.
-/
def depthBound (parser : Parser) (source : TokenSource) : Nat :=
  -- Every reading is one place for a token, and the end of input is one more.
  (source.readings.length + 1) * parser.table.names.length

/-- More than the number of children that any node can have. -/
def breadth (parser : Parser) : Nat :=
  (parser.table.grammar.productions.flatMap Production.rhs).length + 1

/-- The number of steps that no parse can reach. Every node is on the stack once. -/
def stepBound (parser : Parser) (source : TokenSource) : Nat :=
  Nat.pow parser.breadth (parser.depthBound source)

/-- The stack and the state from which a parse starts: the start symbol alone, and its node. -/
def initial (parser : Parser) (token : Token) (source : TokenSource) : Stack × ParseState :=
  let symbol : Symbol := .nonterminal parser.table.grammar.start
  ([(0, symbol)], { token, source, arena := .single { symbol } })

/-- The nodes that a parse of a source makes, all of which must follow the grammar. The root has number zero. -/
def build (parser : Parser) (source : TokenSource) : Except Failure (Arena Label) := do
  let (token, rest) ← request source
  let (stack, start) := parser.initial token rest
  let state ← parser.run (parser.stepBound source) stack start
  -- The start symbol is derived, so any token that is left has no place.
  if state.token.isEnd then return state.arena
  else
    throw (parser.mismatch .leftoverInput (parser.table.registry.nameOf Category.endOfInput)
      state.token)

/-- The parse tree of a source. -/
def parse (parser : Parser) (source : TokenSource) : Except Failure SyntaxTree := do
  let arena ← parser.build source
  match arena.tree 0 with
  | .ok tree => return tree
  | .error cause => throw (.fault cause)

end Parser

end ThreeAddress

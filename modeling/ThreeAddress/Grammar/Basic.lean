import ThreeAddress.Grammar.Symbol
import ThreeAddress.Grammar.Registry

/-! Context-free grammars, and how they are put together from rules. -/

namespace ThreeAddress

/-- A grammar: a start symbol, and productions in the order of their serial numbers. -/
structure Grammar where
  name : Text
  start : Text
  productions : List Production
deriving DecidableEq, Repr

namespace Grammar

def size (grammar : Grammar) : Nat :=
  grammar.productions.length

/-- The non-terminals with rules: the start symbol, and then the others in order of definition. -/
def nonterminals (grammar : Grammar) : List Text :=
  grammar.start ::
    ((grammar.productions.map Production.lhs).eraseDups.filter fun name => name != grammar.start)

def productionsOf (grammar : Grammar) (name : Text) : List Production :=
  grammar.productions.filter fun production => production.lhs == name

def isNonterminal (grammar : Grammar) (name : Text) : Bool :=
  grammar.productions.any fun production => production.lhs == name

def production? (grammar : Grammar) (serial : Int) : Option Production :=
  match serial with
  | .ofNat index => grammar.productions[index]?
  | .negSucc _ => none

/-- The terminals by category. Of several names for one category the last one stays. -/
def terminals (grammar : Grammar) : NamedCategories :=
  (grammar.productions.flatMap Production.rhs).foldl
    (fun named symbol =>
      match symbol with
      | .terminal name category => if symbol.isEpsilon then named else named.put category name
      | .nonterminal _ => named)
    []

end Grammar

/-- Why rules do not make a grammar. -/
inductive GrammarError where
  | empty (grammar : Text)
  | startWithoutRules (grammar start : Text)
  /-- The empty text next to other symbols. -/
  | epsilonInside (grammar : Text) (production : Production) (position : Nat)
  | undefinedNonterminal (grammar name : Text) (production : Production)
  | unreadable
  | unnamedRule
  | ruleWithoutProductions (rule : Text)
  | epsilonNotAlone (rule : Text)
  | noStartProduction (grammar start : Text)
  | unsupportedRange (rule : Text)
  /-- A text that does not follow the notation: its first error, and how many more there are. -/
  | malformed (first : Text) (more : Nat)
  /-- A terminal that the registry does not know. -/
  | undefinedToken (name place : Text)
  | fault (cause : Fault)
deriving DecidableEq, Repr

def GrammarError.message : GrammarError → Text
  | empty grammar => "grammar " ++ grammar ++ " is empty"
  | startWithoutRules grammar start =>
    "grammar " ++ grammar ++ ": start symbol " ++ start ++ " has no rules"
  | epsilonInside grammar production position =>
    "grammar " ++ grammar ++ ": epsilon within production " ++ production.text ++
      " (position " ++ Text.ofNat position ++ ")"
  | undefinedNonterminal grammar name production =>
    "grammar " ++ grammar ++ ": non-terminal " ++ name ++ " referenced in " ++
      production.text ++ " is undefined"
  | unreadable => "cannot decode grammar"
  | unnamedRule => "grammar rule without id"
  | ruleWithoutProductions rule => "grammar rule " ++ rule ++ " has no productions"
  | epsilonNotAlone rule => "grammar rule " ++ rule ++ ": epsilon must stand alone"
  | noStartProduction grammar start =>
    "EBNF grammar " ++ grammar ++ " has no production for start symbol " ++ start
  | unsupportedRange rule => "EBNF rule " ++ rule ++ ": unsupported expression *ebnf.Range"
  | malformed first more =>
    if more = 0 then first
    else first ++ " (and " ++ Text.ofNat more ++ " more errors)"
  | undefinedToken name place => (Diagnostic.undefinedToken name place).message
  | fault cause => cause.message

/-- A grammar under construction. -/
structure GrammarBuilder where
  name : Text
  start : Text := []
  productions : List Production := []
deriving DecidableEq, Repr

namespace GrammarBuilder

def withStart (builder : GrammarBuilder) (start : Text) : GrammarBuilder :=
  { builder with start }

/-- Appends a production. No symbols stand for the empty text, and the first rule gives the start symbol. -/
def add (builder : GrammarBuilder) (lhs : Text) (rhs : List Symbol) : GrammarBuilder :=
  { builder with
    start := if builder.start.isEmpty then lhs else builder.start
    productions := builder.productions ++
      [{ serial := builder.productions.length, lhs
         rhs := if rhs.isEmpty then [Symbol.epsilon] else rhs }] }

def checkTerminals : List Symbol → Except Fault Unit
  | [] => .ok ()
  | .nonterminal _ :: rest => checkTerminals rest
  | .terminal name category :: rest =>
    if category < 0 then .error (.reservedTerminal name category) else checkTerminals rest

/--
Appends a rule as a caller writes it.

Its non-terminal needs a name and its terminals need an open category.
A rule may be said to derive the empty text whatever symbols were listed for it.
-/
def rule (builder : GrammarBuilder) (lhs : Text) (rhs : List Symbol) (vanishes : Bool) :
    Except Fault GrammarBuilder :=
  if lhs.isEmpty then .error .unnamedNonterminal
  else do
    checkTerminals rhs
    return builder.add lhs (if vanishes then [] else rhs)

def checkSymbols (grammar : Grammar) (production : Production) :
    Nat → List Symbol → Except GrammarError Unit
  | _, [] => .ok ()
  | position, symbol :: rest =>
    -- The empty text is a right-hand side of its own and never a part of one.
    if symbol.isEpsilon && production.rhs.length > 1 then
      .error (.epsilonInside grammar.name production position)
    else if !symbol.isTerminal && !grammar.isNonterminal symbol.name then
      .error (.undefinedNonterminal grammar.name symbol.name production)
    else checkSymbols grammar production (position + 1) rest

/-- The grammar of the rules added, provided that they are complete. -/
def grammar (builder : GrammarBuilder) : Except GrammarError Grammar :=
  let result : Grammar := ⟨builder.name, builder.start, builder.productions⟩
  if builder.start.isEmpty then .error (.empty builder.name)
  else if !result.isNonterminal builder.start then
    .error (.startWithoutRules builder.name builder.start)
  -- Every symbol is checked against the finished rules, since rules may refer to later ones.
  else do
    builder.productions.forM fun production => checkSymbols result production 0 production.rhs
    return result

end GrammarBuilder

end ThreeAddress

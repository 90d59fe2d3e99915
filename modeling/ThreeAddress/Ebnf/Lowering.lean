import ThreeAddress.Ebnf.Expression
import ThreeAddress.Grammar.Basic

/-!
From EBNF to plain productions.

Groups, options and repetitions become helper rules, named after the production that holds them.
-/

namespace ThreeAddress.Ebnf

/-- The right-hand sides of one rule. -/
abbrev Alternatives := List (List Symbol)

/-- The helper rules made for one production: how many, and those in order of their making. -/
structure Helpers where
  count : Nat := 0
  rules : List (Text × Alternatives) := []
deriving Repr

/-- What lowering a production needs to know: its name, all production names, and the categories. -/
structure Scope where
  rule : Text
  names : List Text
  category? : Text → Option Category

/-- Lowering makes helper rules, and fails at the first thing it cannot lower. -/
abbrev Lower (α : Type) := StateT Helpers (Except GrammarError) α

/-- Names a new helper rule, whose right-hand sides may hold its own name. -/
def helper (scope : Scope) (alternatives : Symbol → Alternatives) : Lower Symbol := do
  let helpers ← get
  -- No production has a name with this mark in it, so helpers never clash with productions.
  let count := helpers.count + 1
  let name : Text := scope.rule ++ "~" ++ Text.ofNat count
  set { helpers with count, rules := helpers.rules ++ [(name, alternatives (.nonterminal name))] }
  return .nonterminal name

def terminal (scope : Scope) (name : Text) : Lower Symbol :=
  match scope.category? name with
  | some category => return .terminal name category
  | none => throw (.undefinedToken name ("rule " ++ scope.rule))

/-- The right-hand sides of a rule for one of some alternatives, or none of them. -/
def optional (alternatives : Alternatives) : Alternatives :=
  alternatives ++ [[]]

/-- The right-hand sides of a rule for any number of some alternatives. -/
def repeated (alternatives : Alternatives) (rule : Symbol) : Alternatives :=
  -- The rule calls itself at the end of each round, or derives nothing more.
  alternatives.map (fun symbols => symbols ++ [rule]) ++ [[]]

mutual

/-- The symbol that stands for a term within a right-hand side. -/
def symbol (scope : Scope) : Term → Lower Symbol
  | .name name =>
    if scope.names.contains name then return .nonterminal name else terminal scope name
  | .token name => terminal scope name
  | .group body => do
    let inner ← alternatives scope body
    helper scope fun _ => inner
  | .option body => do
    let inner ← alternatives scope body
    helper scope fun _ => optional inner
  | .repetition body => do
    let inner ← alternatives scope body
    helper scope (repeated inner)
  | .range => throw (.unsupportedRange scope.rule)
termination_by structural term => term

def symbols (scope : Scope) : List Term → Lower (List Symbol)
  | [] => return []
  | term :: rest => do
    let first ← symbol scope term
    return first :: (← symbols scope rest)
termination_by structural terms => terms

/-- The right-hand sides of a rule for an expression. -/
def alternatives (scope : Scope) : Expression → Lower Alternatives
  | [] => return []
  | terms :: rest => do
    let first ← symbols scope terms
    return first :: (← alternatives scope rest)
termination_by structural expression => expression

end

def productionAlternatives (scope : Scope) : Option Expression → Lower Alternatives
  | none => return [[]]
  | some expression => alternatives scope expression

/-- Adds a rule with the given right-hand sides. -/
def addRule (builder : GrammarBuilder) (rule : Text × Alternatives) : GrammarBuilder :=
  rule.2.foldl (fun builder symbols => builder.add rule.1 symbols) builder

def addProduction (names : List Text) (category? : Text → Option Category)
    (builder : GrammarBuilder) (production : Production) : Except GrammarError GrammarBuilder := do
  let scope : Scope := { rule := production.name, names, category? }
  let (alternatives, helpers) ← (productionAlternatives scope production.expression).run {}
  return (((production.name, alternatives) :: helpers.rules).foldl addRule builder)

def inOrder (start : Production) (productions : List Production) : List Production :=
  start :: (productions.filter fun other => other.name != start.name).mergeSort
    fun left right => Text.le left.name right.name

def toGrammar (name : Text) (productions : List Production) (start : Text)
    (category? : Text → Option Category) : Except GrammarError Grammar :=
  match productions.find? fun production => production.name == start with
  | none => .error (.noStartProduction name start)
  | some first => do
    -- A name with a production is a non-terminal wherever that production stands.
    let names := productions.map Production.name
    let builder ← (inOrder first productions).foldlM (addProduction names category?)
      ({ name, start } : GrammarBuilder)
    builder.grammar

def load (name text start : Text) (category? : Text → Option Category) :
    Except GrammarError Grammar :=
  match read name text with
  | (productions, []) => toGrammar name productions start category?
  | (_, first :: more) => .error (.malformed first more.length)

end ThreeAddress.Ebnf

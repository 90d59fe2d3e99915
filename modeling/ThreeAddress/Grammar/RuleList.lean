import ThreeAddress.Grammar.Basic
import ThreeAddress.Json
import ThreeAddress.Text.Folding

/-!
Grammars as lists of rules.

A rule list is a JSON array with an object for every rule: its name, and its productions as arrays of symbols.
The terminal called e, alone in a production, stands for the empty text.
-/

namespace ThreeAddress

/-- A symbol of a rule list. -/
structure RuleSymbol where
  name : Text := []
  isTerminal : Bool := false
deriving DecidableEq, Repr

/-- A rule of a rule list. -/
structure Rule where
  name : Text := []
  productions : List (List RuleSymbol) := []
deriving DecidableEq, Repr

/--
A list that can be filled again.

Refilling starts each item from the one that stood at its place before, also from one that an earlier and shorter list left behind.
An empty list forgets all of them.
-/
structure Refillable (α : Type) where
  items : List α := []
  spare : List α := []
deriving Repr

namespace Refillable

private def refillItems {α : Type} (fresh : α) (read : α → Json → Option α) :
    List α → List Json → Option (List α × List α)
  | slots, [] => some ([], slots)
  | [], value :: values => do
    let item ← read fresh value
    let (items, spare) ← refillItems fresh read [] values
    return (item :: items, spare)
  | slot :: slots, value :: values => do
    let item ← read slot value
    let (items, spare) ← refillItems fresh read slots values
    return (item :: items, spare)

/-- Reads a JSON array into the list. A null empties it. -/
def refill {α : Type} (fresh : α) (read : α → Json → Option α) (list : Refillable α) :
    Json → Option (Refillable α)
  | .null => some {}
  | .array [] => some {}
  | .array values => do
    -- What the new list does not reach stays behind it, out of sight.
    let (items, spare) ← refillItems fresh read (list.items ++ list.spare) values
    return { items, spare }
  | _ => none

end Refillable

namespace RuleList

/-- Reads a text. A null changes nothing. -/
private def readText (old : Text) : Json → Option Text
  | .null => some old
  | .string text => some text
  | _ => none

/-- Reads a truth value. A null changes nothing. -/
private def readBool (old : Bool) : Json → Option Bool
  | .null => some old
  | .bool value => some value
  | _ => none

/-- Reads one member of a symbol. Keys count without regard to case, and unknown ones not at all. -/
private def readSymbolMember (symbol : RuleSymbol) (member : Text × Json) : Option RuleSymbol :=
  if member.1.equalsFolded "id" then do
    return { symbol with name := ← readText symbol.name member.2 }
  else if member.1.equalsFolded "isterminal" then do
    return { symbol with isTerminal := ← readBool symbol.isTerminal member.2 }
  else some symbol

private def readSymbol (old : RuleSymbol) : Json → Option RuleSymbol
  | .null => some old
  | .object members => members.foldlM readSymbolMember old
  | _ => none

/-- A rule while its members are read. -/
private structure Draft where
  name : Text := []
  productions : Refillable (Refillable RuleSymbol) := {}

private def readRuleMember (draft : Draft) (member : Text × Json) : Option Draft :=
  if member.1.equalsFolded "id" then do
    return { draft with name := ← readText draft.name member.2 }
  else if member.1.equalsFolded "production" then do
    let read := Refillable.refill {} readSymbol
    return { draft with productions := ← draft.productions.refill {} read member.2 }
  else some draft

private def readRule : Json → Option Rule
  | .null => some {}
  | .object members => do
    let draft ← members.foldlM readRuleMember {}
    return { name := draft.name, productions := draft.productions.items.map Refillable.items }
  | _ => none

/-- The rules of a JSON value. A null is a list without rules. -/
def ofJson? : Json → Option (List Rule)
  | .null => some []
  | .array values => values.mapM readRule
  | _ => none

private def writeSymbol (symbol : RuleSymbol) : Text :=
  "\x7b\"Id\": \"" ++ symbol.name ++ "\", \"isTerminal\": " ++
    (if symbol.isTerminal then "true" else "false" : Text) ++ "\x7d"

private def writeProduction (symbols : List RuleSymbol) : Text :=
  "    [" ++ Text.join ", " (symbols.map writeSymbol) ++ "]"

private def writeRule (rule : Rule) : Text :=
  "  \x7b\"Id\": \"" ++ rule.name ++ "\", \"production\": [\n" ++
    Text.join ",\n" (rule.productions.map writeProduction) ++ "]\x7d"

/-- The written form of a rule list whose names need no escapes: one production per line. -/
def write (rules : List Rule) : Text :=
  "[\n" ++ Text.join ",\n" (rules.map writeRule) ++ "\n]\n"

def epsilonName : Text := "e"

def symbolsOf (category? : Text → Option Category) (rule : Text) (alone : Bool) :
    List RuleSymbol → Except GrammarError (List Symbol)
  | [] => .ok []
  | symbol :: rest =>
    if !symbol.isTerminal then do
      return .nonterminal symbol.name :: (← symbolsOf category? rule alone rest)
    -- The name of the empty text is never looked up among the categories.
    else if symbol.name == epsilonName then
      if alone then symbolsOf category? rule alone rest else .error (.epsilonNotAlone rule)
    else match category? symbol.name with
      | none => .error (.undefinedToken symbol.name ("rule " ++ rule))
      | some category => do
        return .terminal symbol.name category :: (← symbolsOf category? rule alone rest)

def addRule (category? : Text → Option Category) (builder : GrammarBuilder) (rule : Rule) :
    Except GrammarError GrammarBuilder :=
  if rule.name.isEmpty then .error .unnamedRule
  else if rule.productions.isEmpty then .error (.ruleWithoutProductions rule.name)
  else rule.productions.foldlM
    (fun builder production => do
      let symbols ← symbolsOf category? rule.name (production.length ≤ 1) production
      return builder.add rule.name symbols)
    builder

/-- The grammar of a rule list. Without a start symbol of its own, the first rule gives it. -/
def toGrammar (rules : List Rule) (start : Text) (category? : Text → Option Category) :
    Except GrammarError Grammar := do
  let builder ← rules.foldlM (addRule category?) ({ name := "G", start } : GrammarBuilder)
  builder.grammar

def load (text start : Text) (category? : Text → Option Category) :
    Except GrammarError Grammar :=
  match (Json.first? text).bind ofJson? with
  | none => .error .unreadable
  | some rules => toGrammar rules start category?

end RuleList

end ThreeAddress

import ThreeAddress.Token

/-! Grammar symbols and productions. -/

namespace ThreeAddress

/-- A symbol of a grammar. A terminal is printed by its name and matched by its category. -/
inductive Symbol where
  | nonterminal (name : Text)
  | terminal (name : Text) (category : Category)
deriving DecidableEq, Repr

namespace Symbol

def epsilon : Symbol :=
  terminal "ε" Category.epsilon

def name : Symbol → Text
  | nonterminal name => name
  | terminal name _ => name

def isTerminal : Symbol → Bool
  | nonterminal _ => false
  | terminal .. => true

def category? : Symbol → Option Category
  | nonterminal _ => none
  | terminal _ category => some category

def hasCategory (symbol : Symbol) (category : Category) : Bool :=
  symbol.category? == some category

/-- Whether a symbol stands for the empty text. -/
def isEpsilon (symbol : Symbol) : Bool :=
  symbol.hasCategory Category.epsilon

/-- Whether two symbols are interchangeable: terminals by category, non-terminals by name. -/
def agrees : Symbol → Symbol → Bool
  | terminal _ category, terminal _ other => category == other
  | nonterminal name, nonterminal other => name == other
  | _, _ => false

/-- A symbol as it stands in messages: non-terminals in brackets. -/
def text : Symbol → Text
  | terminal name _ => name
  | nonterminal name => "[" ++ name ++ "]"

end Symbol

/-- A production of a grammar, numbered by its place among all productions. -/
structure Production where
  serial : Nat
  lhs : Text
  rhs : List Symbol
deriving DecidableEq, Repr

namespace Production

/-- Whether a production is written as deriving the empty text. -/
def isEpsilon (production : Production) : Bool :=
  match production.rhs with
  | [symbol] => symbol.isEpsilon
  | _ => false

/-- A symbol as it stands within a production: the empty text shows nothing. -/
def symbolText (symbol : Symbol) : Text :=
  if symbol.isEpsilon then [] else symbol.name

def text (production : Production) : Text :=
  Text.ofNat production.serial ++ ": [" ++ production.lhs ++ "] ::= [" ++
    Text.join " " (production.rhs.map symbolText) ++ "]"

end Production

end ThreeAddress

import ThreeAddress.Grammar.Registry

/-!
The words of the language.

Names and literals have a category each.
Keywords and then marks are numbered on from there, in the order listed here.
-/

namespace ThreeAddress.Language

def identifier : Category := 1

def constant : Category := 2

def keywords : List Text :=
  ["func", "start", "end", "var", "call", "if", "elseif", "else", "fi",
    "meanwhile", "done", "return", "true", "false",
    "int", "float", "char", "boolean"]

def marks : List Text :=
  ["(", ")", "\x7b", "\x7d", ",", ";", "=", "+", "-", "*", "/",
    "<", ">", "<=", ">=", "==", "!=", "&&", "||"]

def categories : NamedCategories :=
  (identifier, "id") :: (constant, "const") ::
    (keywords ++ marks).zipIdx.map fun (word, index) => ((3 + index : Nat), word)

def registry : Registry :=
  { entries := categories }

def functionWord : Category := 3

/-- The category of the keyword that opens the main block. -/
def startWord : Category := 4

/-- The category of the keyword that closes the main block. -/
def endWord : Category := 5

def variableWord : Category := 6

def elseWord : Category := 10

def trueWord : Category := 15

def falseWord : Category := 16

def openParen : Category := 21

def closeParen : Category := 22

def openBrace : Category := 23

def closeBrace : Category := 24

def comma : Category := 25

def isTypeWord (category : Category) : Bool :=
  decide (17 ≤ category ∧ category ≤ 20)

def isOperator (category : Category) : Bool :=
  decide (28 ≤ category ∧ category ≤ 39)

end ThreeAddress.Language

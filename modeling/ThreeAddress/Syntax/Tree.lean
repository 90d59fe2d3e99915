import ThreeAddress.Grammar.Symbol
import ThreeAddress.Tree.Basic

/-! Syntax trees: ordered trees of grammar symbols, with the tokens of a source in their leaves. -/

namespace ThreeAddress

/-- A node of a syntax tree: a symbol, and the token read for a terminal. -/
structure Label where
  symbol : Symbol
  token : Option Token := none
deriving DecidableEq, Repr

namespace Label

def handle (label : Label) : Handle :=
  label.token.elim Handle.absent Token.handle

def text (label : Label) : Text :=
  match label.token with
  | some token =>
    if token.handle.isValid then label.symbol.name ++ ":" ++ token.lexeme else label.symbol.text
  | none => label.symbol.text

/-- Whether two nodes carry interchangeable symbols. -/
def agrees (left right : Label) : Bool :=
  left.symbol.agrees right.symbol

end Label

abbrev SyntaxTree := Tree Label

namespace SyntaxTree

def symbol (tree : SyntaxTree) : Symbol :=
  tree.value.symbol

def tokens (tree : SyntaxTree) : List Token :=
  (Tree.leaves tree).filterMap fun leaf => leaf.value.token

mutual

/-- The place of a node in the source: that of its token, or the extent of what is below it. -/
def span : SyntaxTree → Span
  -- A token has its own place, and any other node covers what is below it.
  | .node _ label children =>
    match label.token with
    | some token => token.span
    | none => forestSpan Span.null children
termination_by structural tree => tree

def forestSpan (covered : Span) : List SyntaxTree → Span
  | [] => covered
  | tree :: rest => forestSpan (covered.extend (span tree)) rest
termination_by structural trees => trees

end

def leafText (label : Label) : Text :=
  label.token.elim label.symbol.name Token.lexeme

mutual

def sexpr : SyntaxTree → Text
  | .node _ label [] => leafText label
  | .node _ label (first :: rest) =>
    "(" ++ label.symbol.name ++ forestSexpr (first :: rest) ++ ")"
termination_by structural tree => tree

/-- The parenthesised forms of some trees, each behind a blank. -/
def forestSexpr : List SyntaxTree → Text
  | [] => []
  | tree :: rest => " " ++ sexpr tree ++ forestSexpr rest
termination_by structural trees => trees

end

end SyntaxTree

end ThreeAddress

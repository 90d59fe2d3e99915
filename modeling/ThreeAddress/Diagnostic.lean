import ThreeAddress.Span
import ThreeAddress.Text.Quoted

/-! What can be wrong with a source text, and how it is told. -/

namespace ThreeAddress

/-- How a token list fails to follow a grammar. -/
inductive Mismatch where
  | unexpectedToken
  /-- The expected non-terminal has no production for the token read. -/
  | noProduction
  | leftoverStack
  /-- Nothing more was expected while the input goes on. -/
  | leftoverInput
  | unspecified
deriving DecidableEq, Repr

def Mismatch.text : Mismatch → Text
  | unexpectedToken => "unexpected token"
  | noProduction => "no production"
  | leftoverStack => "leftover stack"
  | leftoverInput => "leftover input"
  | unspecified => "mismatch"

def Mismatch.ofNumber (number : Int8) : Mismatch :=
  match number.toInt with
  | 0 => unexpectedToken
  | 1 => noProduction
  | 2 => leftoverStack
  | 3 => leftoverInput
  | _ => unspecified

/-- How the arguments of a call fail to fit the parameters. -/
inductive ParameterProblem where
  | wrongCount
  | wrongType
  | functionPassed
  | unspecified
deriving DecidableEq, Repr

/-- What a call is said to have been given. -/
def ParameterProblem.text : ParameterProblem → Text
  | wrongCount => "wrong number of parameters"
  | wrongType => "wrong type of parameters"
  | functionPassed => "a function as a parameter"
  | unspecified => ""

def ParameterProblem.ofNumber (number : Int8) : ParameterProblem :=
  match number.toInt with
  | 0 => wrongCount
  | 1 => wrongType
  | 2 => functionPassed
  | _ => unspecified

/-- An error in a source text or a grammar, by kind. -/
inductive Diagnostic where
  | undefinedToken (name place : Text)
  | grammarMismatch (kind : Mismatch) (expected found : Text) (span : Span)
  | semanticType (context want got : Text)
  | duplicateDeclaration (name scope : Text)
  | undeclaredSymbol (name scope : Text)
  | parameterMismatch (function : Text) (problem : ParameterProblem) (params args : List Text)
  | malformedConstant (text type : Text) (cause : Option Text)
deriving DecidableEq, Repr

namespace Diagnostic

def message : Diagnostic → Text
  | undefinedToken name place =>
    if place.isEmpty then "undefined token " ++ name.quoted
    else "undefined token " ++ name.quoted ++ " in " ++ place
  | grammarMismatch kind expected found span =>
    match kind with
    | .unexpectedToken =>
      "syntax error at " ++ span.text ++ ": expected " ++ expected ++ ", found " ++ found
    | .noProduction =>
      "syntax error at " ++ span.text ++ ": no production for " ++ expected ++
        " with lookahead " ++ found
    | .leftoverStack => "syntax error: unexpected end of input, expected " ++ expected
    | .leftoverInput =>
      "syntax error at " ++ span.text ++ ": input continues with " ++ found ++
        " after end of program"
    | .unspecified => "syntax error"
  | semanticType context want got =>
    "type error in " ++ context ++ ": expected " ++ want ++ ", got " ++ got
  | duplicateDeclaration name scope => name ++ " already declared in scope " ++ scope
  | undeclaredSymbol name scope => name ++ " is not declared (scope " ++ scope ++ ")"
  | parameterMismatch function problem params args =>
    "function " ++ function ++ " passed " ++ problem.text ++ ": (" ++ Text.join ", " args ++
      ") for (" ++ Text.join ", " params ++ ")"
  | malformedConstant text type cause =>
    let what : Text := "malformed " ++ type ++ " constant " ++ text.quoted
    match cause with
    | some reason => what ++ ": " ++ reason
    | none => what

end Diagnostic

end ThreeAddress

import ThreeAddress.Fault

/-! Why a source text gives no result. -/

namespace ThreeAddress

/-- How a tree fails to be that of a program. Every case holds the text of the node or name at fault. -/
inductive TreeProblem where
  | notAProgram (symbol : Text)
  | notAFunction (node : Text)
  | notAStatement (node : Text)
  | notAnOperand (node : Text)
  | unresolvedTarget (node : Text)
  | unresolvedOperand (node : Text)
  | unresolvedCallee (node : Text)
  | misplacedOperator (symbol : Text)
  | missingOperator (node : Text)
  | incompleteExpression (node : Text)
  | functionWithoutBody (name : Text)
deriving DecidableEq, Repr

def TreeProblem.message : TreeProblem → Text
  | notAProgram symbol => "cannot generate code for " ++ symbol ++ ": not a program"
  | notAFunction node => node ++ " is not a function"
  | notAStatement node => "unexpected " ++ node ++ " in statement position"
  | notAnOperand node => "unexpected " ++ node ++ " in expression"
  | unresolvedTarget node => "unresolved assignment target " ++ node
  | unresolvedOperand node => "unresolved operand " ++ node
  | unresolvedCallee node => "unresolved callee " ++ node
  | misplacedOperator symbol => "misplaced operator " ++ symbol
  | missingOperator node => "missing operator before " ++ node
  | incompleteExpression node => "incomplete expression " ++ node
  | functionWithoutBody name => "function " ++ name ++ " has no body"

/-- Why an operation on a source text, its tree or its symbols gave no result. -/
inductive Failure where
  | diagnostic (error : Diagnostic)
  | fault (cause : Fault)
  | tree (problem : TreeProblem)
  /-- A parse that expands non-terminals without end. -/
  | endless
deriving DecidableEq, Repr

def Failure.message : Failure → Text
  | diagnostic error => error.message
  | fault cause => cause.message
  | tree problem => problem.message
  | endless => "parse without end"

end ThreeAddress

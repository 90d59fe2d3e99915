import ThreeAddress.Code.Program
import ThreeAddress.Syntax.Normalizer
import ThreeAddress.Syntax.Parser

/-! From source texts to three-address code. -/

namespace ThreeAddress

def Language.normalizer : Normalizer :=
  { wrappers, opening := openParen, closing := closeParen }

/-- A compiler: a grammar with its analysis, and its parsing table. -/
structure Compiler where
  analysis : Analysis
  table : Table

/-- A compiled program: its tables, its abstract syntax tree and its code. -/
structure Compilation where
  environment : Environment
  tree : SyntaxTree
  code : Code

def Compilation.listing (compilation : Compilation) : Text :=
  compilation.code.listing compilation.environment

namespace Compiler

def ofGrammar (grammar : Grammar) : Except Fault Compiler := do
  let analysis := Analysis.ofGrammar grammar
  return { analysis, table := ← Table.build analysis Language.registry }

def grammar (compiler : Compiler) : Grammar :=
  compiler.analysis.grammar

def standard : Except GrammarError Compiler := do
  let grammar ← Language.grammar Language.registry.category?
  match ofGrammar grammar with
  | .ok compiler => return compiler
  | .error cause => throw (.fault cause)

/-- The parse tree of a source text, and its tables, which start from the given ones. -/
def parseIn (compiler : Compiler) (environment : Environment) (text : Text)
    (halting : Bool := false) : Except Failure (SyntaxTree × Environment) := do
  let (source, state) := Language.lexFrom environment text
  let parser : Parser := { table := compiler.table, halting }
  return (← parser.parse source, state.environment)

def parse (compiler : Compiler) (text : Text) (halting : Bool := false) :
    Except Failure (SyntaxTree × Environment) :=
  compiler.parseIn Environment.empty text halting

/-- The view of the parse tree of a source text. -/
def parseView (compiler : Compiler) (text : Text) (halting : Bool := false) :
    Except Failure (Site Label) := do
  let (source, _) := Language.lexFrom Environment.empty text
  let parser : Parser := { table := compiler.table, halting }
  return { arena := ← parser.build source, root := 0, current := 0 }

def normalize (tree : SyntaxTree) : SyntaxTree :=
  Language.normalizer.normalize tree

def compileIn (compiler : Compiler) (environment : Environment) (text : Text)
    (halting : Bool := false) : Except Failure Compilation := do
  let (parsed, environment) ← compiler.parseIn environment text halting
  -- Generation only adds temporaries, so the tables of the parse stay as they are below them.
  let tree := normalize parsed
  let (result, symbols) := generate environment tree
  return { environment := { environment with symbols }, tree, code := ← result }

def compile (compiler : Compiler) (text : Text) (halting : Bool := false) :
    Except Failure Compilation :=
  compiler.compileIn Environment.empty text halting

end Compiler

end ThreeAddress

import ThreeAddress.Grammar.RuleList
import ThreeAddress.Language.Category

/-! The grammar of the language. -/

namespace ThreeAddress.Language

/-- The start symbol, which stands for a program. -/
def programName : Text := "SFAA"

def part (name : String) : RuleSymbol :=
  { name, isTerminal := false }

def word (name : String) : RuleSymbol :=
  { name, isTerminal := true }

def nothing : List RuleSymbol :=
  [{ name := RuleList.epsilonName, isTerminal := true }]

def rules : List Rule :=
  [ { name := "SFAA"
      productions := [
        [part "FUNCS", word "start", part "STMTS", word "end"]] },
    { name := "FUNCS"
      productions := [
        [part "FUNC", part "FUNCS"],
        nothing] },
    { name := "FUNC"
      productions := [
        [word "func", part "TYPE", word "id", word "(", part "PARAMS", word ")",
          word "\x7b", part "STMTS", word "\x7d"]] },
    { name := "PARAMS"
      productions := [
        [part "PARAM", part "PARAMS_T"],
        nothing] },
    { name := "PARAMS_T"
      productions := [
        [word ",", part "PARAM", part "PARAMS_T"],
        nothing] },
    { name := "PARAM"
      productions := [
        [part "TYPE", word "id"]] },
    { name := "TYPE"
      productions := [
        [word "int"],
        [word "float"],
        [word "char"],
        [word "boolean"]] },
    { name := "STMTS"
      productions := [
        [part "STMT", part "STMTS"],
        nothing] },
    { name := "STMT"
      productions := [
        [part "DECL"],
        [part "ASSIGN"],
        [part "IF"],
        [part "LOOP"],
        [part "RETURN"],
        [part "CALLSTMT"]] },
    { name := "DECL"
      productions := [
        [word "var", part "TYPE", word "id", part "INIT", word ";"]] },
    { name := "INIT"
      productions := [
        [word "=", part "EXPR"],
        nothing] },
    { name := "ASSIGN"
      productions := [
        [word "id", word "=", part "RHS", word ";"]] },
    { name := "RHS"
      productions := [
        [part "EXPR"],
        [part "CALL"]] },
    { name := "CALL"
      productions := [
        [word "call", word "id", word "(", part "ARGS", word ")"]] },
    { name := "ARGS"
      productions := [
        [part "EXPR", part "ARGS_T"],
        nothing] },
    { name := "ARGS_T"
      productions := [
        [word ",", part "EXPR", part "ARGS_T"],
        nothing] },
    { name := "CALLSTMT"
      productions := [
        [part "CALL", word ";"]] },
    { name := "IF"
      productions := [
        [word "if", word "(", part "EXPR", word ")", word "\x7b", part "STMTS", word "\x7d",
          part "ELSE"]] },
    { name := "ELSE"
      productions := [
        [word "elseif", word "(", part "EXPR", word ")", word "\x7b", part "STMTS",
          word "\x7d", part "ELSE"],
        [word "else", word "\x7b", part "STMTS", word "\x7d", word "fi"],
        [word "fi"]] },
    { name := "LOOP"
      productions := [
        [word "meanwhile", word "(", part "EXPR", word ")", word "\x7b", part "STMTS",
          word "\x7d", word "done"]] },
    { name := "RETURN"
      productions := [
        [word "return", part "EXPR", word ";"]] },
    { name := "EXPR"
      productions := [
        [part "REL", part "EXPR_T"]] },
    { name := "EXPR_T"
      productions := [
        [word "&&", part "REL", part "EXPR_T"],
        [word "||", part "REL", part "EXPR_T"],
        nothing] },
    { name := "REL"
      productions := [
        [part "SUM", part "REL_T"]] },
    { name := "REL_T"
      productions := [
        [word "<", part "SUM"],
        [word ">", part "SUM"],
        [word "<=", part "SUM"],
        [word ">=", part "SUM"],
        [word "==", part "SUM"],
        [word "!=", part "SUM"],
        nothing] },
    { name := "SUM"
      productions := [
        [part "TERM", part "SUM_T"]] },
    { name := "SUM_T"
      productions := [
        [word "+", part "TERM", part "SUM_T"],
        [word "-", part "TERM", part "SUM_T"],
        nothing] },
    { name := "TERM"
      productions := [
        [part "FACT", part "TERM_T"]] },
    { name := "TERM_T"
      productions := [
        [word "*", part "FACT", part "TERM_T"],
        [word "/", part "FACT", part "TERM_T"],
        nothing] },
    { name := "FACT"
      productions := [
        [word "(", part "EXPR", word ")"],
        [word "id"],
        [word "const"],
        [word "true"],
        [word "false"]] } ]

def source : Text :=
  RuleList.write rules

def grammar (category? : Text → Option Category) : Except GrammarError Grammar := do
  let grammar ← RuleList.toGrammar rules programName category?
  return { grammar with name := "SFAA" }

/-- The non-terminals that stand for sequencing only. -/
def wrappers : List Text :=
  ["FUNCS", "PARAMS", "PARAMS_T", "STMTS", "STMT", "INIT", "ARGS", "ARGS_T",
    "EXPR_T", "REL_T", "SUM_T", "TERM_T"]

end ThreeAddress.Language

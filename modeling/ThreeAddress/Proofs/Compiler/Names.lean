import ThreeAddress.Proofs.Grammar.Loading
import ThreeAddress.Proofs.Language.Resolution
import ThreeAddress.Proofs.Language.Signatures
import ThreeAddress.Proofs.Source.Scoping

/-!
The symbols of a program that was parsed.

The lexer declares and resolves names before there is a tree.
What it leaves in the tokens and in the symbol table is what the tree says.
-/

namespace ThreeAddress

open ThreeAddress.Language
open SyntaxTree (nodesNamed)

namespace Language

theorem typesNamed_of_trace (text : Text) : TypesNamed ((traceText text).map Prod.fst) := by
  intro token member isType
  obtain ⟨entry, traced, rfl⟩ := List.mem_map.mp member
  -- Names and constants are no types, and every other word has the one text of its kind.
  obtain ⟨piece, inside, lexeme, is | is | kind⟩ := piece_of_trace traced
  · rw [is] at isType
    cases isType
  · rw [is] at isType
    cases isType
  · rw [lexeme, text_of_fixed inside kind]
    exact ofName?_nameOf isType

end Language

namespace Compiler

variable {compiler : Compiler} {text : Text} {halting : Bool} {tree : SyntaxTree}
  {environment : Environment}

/--
The names of a program stand for what its tree says.

A token was read as a declaration exactly if it is a leaf that declares, by its place in the tree.
Plain scoping, replayed over the leaves, gives every name the symbol that its token carries, and the symbol has that name.
The entry of every function has the type and the parameters of its node, and every scope was closed.
-/
theorem names_agree_with_tree (isStandard : Compiler.standard = .ok compiler)
    (parsed : compiler.parse text halting = .ok (tree, environment)) :
    (acts tree).map Prod.fst = SyntaxTree.tokens tree ∧
      traceText text = (acts tree).map (fun leaf => (leaf.1, leaf.2.declares)) ∧
      (∃ final, Replay.run {} (acts tree) =
        some ((acts tree).map fun leaf => symbolOf? leaf.1, final)) ∧
      (∀ leaf ∈ acts tree, leaf.1.category = identifier → NamedIn environment.symbols leaf.1) ∧
      (∀ node ∈ nodesNamed "FUNC" tree, ∃ signature, signature? node = some signature ∧
        signature.HeldBy environment.symbols) ∧
      environment.symbols.scopes.path = [0] ∧
      environment.symbols.scopeName = SymbolTable.globalScope := by
  obtain ⟨_, same, faithful⟩ := standard_faithful
  cases isStandard.symm.trans same
  obtain ⟨accepted, rfl⟩ := parse_eq_ok parsed
  obtain ⟨derivation, start, scans⟩ := scans_of_parse faithful accepted
  obtain ⟨tokens, traces⟩ := traces_of_parse faithful accepted
  obtain ⟨_, _, inside⟩ := program_scoped derivation start scans
  -- The tree leads from the place in front of all words to the one behind the main block.
  have leads : placeAfter .outside (Role.ofSymbol (SyntaxTree.symbol tree), .plain) =
      some .finished := by
    rw [start, standardGrammar_start]
    decide
  have leaves := actsFrom_tokens derivation .plain
  obtain ⟨⟨final, ran, linked⟩, declared, named⟩ :=
    linked_start.replayed traces (tokens.trans leaves.symm) (placeAfter_acts derivation leads)
  have types := typesNamed_of_trace text
  rw [tokens] at types
  have top := linked.holds.top
  exact ⟨leaves, declared, ⟨final, ran⟩, named,
    signatures_of_program derivation start scans types, top, inside.sound.scopeName_eq top⟩

end Compiler

/-- A program with a parameter and a variable of the main block that share a name. -/
def shadowText : Text :=
  ("func int #f(int #a, float #b) \x7b if (#a > 1) \x7b var int #c = #a; \x7d fi " : Text) ++
    "return #a; \x7d start var float #a = 2.5; #a = call #f(1, #a); end"

/-- The text parses, with a function of two parameters and two symbols of the shared name. -/
theorem shadowText_parsed : (Compiler.standard.toOption.bind fun compiler =>
    (compiler.parse shadowText).toOption.bind fun parsed =>
      some ((nodesNamed "FUNC" parsed.1).map signature?,
        (acts parsed.1).filterMap fun leaf => symbolOf? leaf.1)) =
    some ([some ⟨0, .int, [(1, .int), (2, .float)]⟩], [0, 1, 2, 1, 3, 1, 1, 4, 4, 0, 4]) := by
  decide +kernel

/-- Plain scoping keeps the two apart as well, and the table holds the signature. -/
theorem Compiler.names_agree_with_shadow : ∃ compiler tree environment,
    Compiler.standard = .ok compiler ∧ compiler.parse shadowText = .ok (tree, environment) ∧
      traceText shadowText = (acts tree).map (fun leaf => (leaf.1, leaf.2.declares)) ∧
      (∃ symbols final, Replay.run {} (acts tree) = some (symbols, final) ∧
        symbols.filterMap id = [0, 1, 2, 1, 3, 1, 1, 4, 4, 0, 4]) ∧
      Signature.HeldBy environment.symbols ⟨0, .int, [(1, .int), (2, .float)]⟩ ∧
      environment.symbols.scopes.path = [0] := by
  obtain ⟨compiler, standard, computed⟩ := ok_of_toOption_bind shadowText_parsed
  obtain ⟨⟨tree, environment⟩, parsed, answers⟩ := ok_of_toOption_bind computed
  simp only [Option.some.injEq, Prod.mk.injEq] at answers
  obtain ⟨functions, symbols⟩ := answers
  obtain ⟨_, declared, ⟨final, ran⟩, _, signatures, top, _⟩ :=
    Compiler.names_agree_with_tree standard parsed
  obtain ⟨node, _, nodes, isSignature, _⟩ := List.map_eq_cons_iff.mp functions
  obtain ⟨signature, found, held⟩ := signatures node (by rw [nodes]; simp)
  cases isSignature.symm.trans found
  refine ⟨compiler, tree, environment, standard, parsed, declared, ⟨_, final, ran, ?_⟩, held, top⟩
  rw [List.filterMap_map]
  exact symbols

end ThreeAddress

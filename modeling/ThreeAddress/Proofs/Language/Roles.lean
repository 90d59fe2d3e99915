import ThreeAddress.Compiler
import ThreeAddress.Proofs.Table.Prediction

/-!
The grammar of the language by the roles of its symbols.

Symbols that read alike have one role: all operators, say, or all levels of an expression.
-/

namespace ThreeAddress

namespace Language

/-- What a symbol of the grammar is for. -/
inductive Role where
  | program
  | functions
  | function
  | params
  | paramsTail
  | param
  | type
  | statements
  | statement
  | declaration
  | initializer
  | assignment
  /-- What an assignment takes its value from. -/
  | source
  | call
  | arguments
  | argumentsTail
  | callStatement
  | conditional
  /-- The branches of a conditional behind its first. -/
  | otherwise
  | loop
  | ret
  /-- An expression of any level. -/
  | operand
  /-- The operators of a level, each with its right operand. -/
  | tail
  | name
  | literal
  | typeWord
  | operator
  /-- Any other word. -/
  | word (category : Int)
deriving DecidableEq, Repr

namespace Role

def ofCategory (category : Int) : Role := if category = identifier then name
  else if category = constant ∨ category = trueWord ∨ category = falseWord then literal
  else if isTypeWord category then typeWord
  else if isOperator category then operator
  else word category

/-- The non-terminals with a role of their own. -/
def named : List (Text × Role) :=
  [("SFAA", program), ("FUNCS", functions), ("FUNC", function), ("PARAMS", params),
    ("PARAMS_T", paramsTail), ("PARAM", param), ("TYPE", type), ("STMTS", statements),
    ("STMT", statement), ("DECL", declaration), ("INIT", initializer), ("ASSIGN", assignment),
    ("RHS", source), ("CALL", call), ("ARGS", arguments), ("ARGS_T", argumentsTail),
    ("CALLSTMT", callStatement), ("IF", conditional), ("ELSE", otherwise), ("LOOP", loop),
    ("RETURN", ret)]

/-- The levels of expressions. -/
def operandNames : List Text := ["EXPR", "REL", "SUM", "TERM", "FACT"]

def ofSymbol : Symbol → Role
  | .terminal _ category => ofCategory category
  | .nonterminal text =>
    (named.lookup text).getD (if operandNames.contains text then operand else tail)

/-- The bodies of a role, by the roles of their symbols. -/
def bodies : Role → List (List Role)
  | program => [[functions, word 4, statements, word 5]]
  | functions => [[function, functions], []]
  | function =>
    [[word 3, type, name, word 21, params, word 22, word 23, statements, word 24]]
  | params => [[param, paramsTail], []]
  | paramsTail => [[word 25, param, paramsTail], []]
  | param => [[type, name]]
  | type => [[typeWord]]
  | statements => [[statement, statements], []]
  | statement =>
    [[declaration], [assignment], [conditional], [loop], [ret], [callStatement]]
  | declaration => [[word 6, type, name, initializer, word 26]]
  | initializer => [[word 27, operand], []]
  | assignment => [[name, word 27, source, word 26]]
  | source => [[operand], [call]]
  | call => [[word 7, name, word 21, arguments, word 22]]
  | arguments => [[operand, argumentsTail], []]
  | argumentsTail => [[word 25, operand, argumentsTail], []]
  | callStatement => [[call, word 26]]
  | conditional =>
    [[word 8, word 21, operand, word 22, word 23, statements, word 24, otherwise]]
  | otherwise =>
    [[word 9, word 21, operand, word 22, word 23, statements, word 24, otherwise],
      [word 10, word 23, statements, word 24, word 11], [word 11]]
  | loop => [[word 12, word 21, operand, word 22, word 23, statements, word 24, word 13]]
  | ret => [[word 14, operand, word 26]]
  | operand => [[operand, tail], [word 21, operand, word 22], [name], [literal]]
  | tail => [[operator, operand, tail], [operator, operand], []]
  | name | literal | typeWord | operator | word _ => []

/-- Whether the nodes of a role stand for sequencing only. -/
def isWrapper : Role → Bool
  | functions | params | paramsTail | statements | statement | initializer | arguments
  | argumentsTail | tail => true
  | _ => false

theorem ofCategory_cases (category : Int) :
    ofCategory category = name ∧ category = identifier ∨ ofCategory category = literal ∧
        (category = constant ∨ category = trueWord ∨ category = falseWord) ∨
      ofCategory category = typeWord ∧ isTypeWord category = true ∨
      ofCategory category = operator ∧ isOperator category = true ∨
      ofCategory category = word category := by
  unfold ofCategory
  split
  · exact .inl ⟨rfl, ‹_›⟩
  split
  · exact .inr (.inl ⟨rfl, ‹_›⟩)
  split
  · exact .inr (.inr (.inl ⟨rfl, ‹_›⟩))
  split
  · exact .inr (.inr (.inr (.inl ⟨rfl, ‹_›⟩)))
  · exact .inr (.inr (.inr (.inr rfl)))

variable {category : Int}

theorem eq_identifier (role : ofCategory category = name) : category = identifier := by
  rcases ofCategory_cases category with ⟨_, same⟩ | ⟨is, _⟩ | ⟨is, _⟩ | ⟨is, _⟩ | is
  · exact same
  all_goals rw [is] at role; cases role

theorem isLiteral_of_role (role : ofCategory category = literal) :
    category = constant ∨ category = trueWord ∨ category = falseWord := by
  rcases ofCategory_cases category with ⟨is, _⟩ | ⟨_, same⟩ | ⟨is, _⟩ | ⟨is, _⟩ | is
  · rw [is] at role; cases role
  · exact same
  all_goals rw [is] at role; cases role

theorem isTypeWord_of_role (role : ofCategory category = typeWord) :
    isTypeWord category = true := by
  rcases ofCategory_cases category with ⟨is, _⟩ | ⟨is, _⟩ | ⟨_, same⟩ | ⟨is, _⟩ | is
  · rw [is] at role; cases role
  · rw [is] at role; cases role
  · exact same
  all_goals rw [is] at role; cases role

theorem isOperator_of_role (role : ofCategory category = operator) :
    isOperator category = true := by
  rcases ofCategory_cases category with ⟨is, _⟩ | ⟨is, _⟩ | ⟨is, _⟩ | ⟨_, same⟩ | is
  · rw [is] at role; cases role
  · rw [is] at role; cases role
  · rw [is] at role; cases role
  · exact same
  · rw [is] at role; cases role

theorem eq_of_word {other : Int} (role : ofCategory category = word other) : category = other := by
  rcases ofCategory_cases category with ⟨is, _⟩ | ⟨is, _⟩ | ⟨is, _⟩ | ⟨is, _⟩ | is
  all_goals rw [is] at role; cases role
  rfl

end Role

/-- The grammar of the language, with the categories of its words. -/
def standardGrammar : Grammar :=
  match grammar registry.category? with
  | .ok grammar => grammar
  | .error _ => ⟨[], [], []⟩

theorem grammar_eq : grammar registry.category? = .ok standardGrammar := by
  have made : (grammar registry.category?).isOk = true := by decide +kernel
  unfold standardGrammar
  cases found : grammar registry.category? with
  | error error => simp [found, Except.isOk, Except.toBool] at made
  | ok result => rfl

/-- What holds of a production of the language by its role. -/
structure Role.Fits (production : Production) : Prop where
  bodies : production.body.map ofSymbol ∈ (ofSymbol (.nonterminal production.lhs)).bodies
  wrapper : normalizer.isWrapper (.nonterminal production.lhs) =
    (ofSymbol (.nonterminal production.lhs)).isWrapper
  /-- A role of its own tells the name of a non-terminal. -/
  named : ∀ entry ∈ named, entry.2 = ofSymbol (.nonterminal production.lhs) →
    production.lhs = entry.1
  operand : ofSymbol (.nonterminal production.lhs) = .operand → production.lhs ∈ operandNames

theorem Role.fits {production : Production} (member : production ∈ standardGrammar.productions) :
    Role.Fits production := by
  have checked : ∀ production ∈ standardGrammar.productions,
      production.body.map ofSymbol ∈ (ofSymbol (.nonterminal production.lhs)).bodies ∧
      normalizer.isWrapper (.nonterminal production.lhs) =
        (ofSymbol (.nonterminal production.lhs)).isWrapper ∧
      (∀ entry ∈ Role.named, entry.2 = ofSymbol (.nonterminal production.lhs) →
        production.lhs = entry.1) ∧
      (ofSymbol (.nonterminal production.lhs) = .operand → production.lhs ∈ operandNames) := by
    decide +kernel
  obtain ⟨bodies, wrapper, named, operand⟩ := checked production member
  exact ⟨bodies, wrapper, named, operand⟩

theorem standardGrammar_start : standardGrammar.start = programName := by decide +kernel

theorem Role.ofSymbol_start : ofSymbol (.nonterminal standardGrammar.start) = .program := by
  rw [standardGrammar_start]
  decide

theorem standardGrammar_wellFormed : standardGrammar.WellFormed := by
  have checked : (∀ entry ∈ standardGrammar.productions.zipIdx, entry.1.serial = entry.2) ∧
      standardGrammar.isNonterminal standardGrammar.start = true ∧
      ∀ production ∈ standardGrammar.productions, production.rhs ≠ [] ∧ ∀ symbol ∈ production.body,
          (symbol.isTerminal || standardGrammar.isNonterminal symbol.name) = true ∧
            symbol.category?.all (fun category => 0 ≤ category) = true := by
    decide +kernel
  obtain ⟨numbered, started, symbols⟩ := checked
  refine ⟨?_, started, fun production member => (symbols production member).1, ?_, ?_⟩
  · intro index production found
    exact numbered (production, index) (by simpa [List.mem_zipIdx_iff_getElem?] using found)
  · intro production member name inside
    simpa [Symbol.isTerminal, Symbol.name] using ((symbols production member).2 _ inside).1
  · intro production member name category inside
    simpa [Symbol.category?] using ((symbols production member).2 _ inside).2

theorem standardGrammar_isLL1 : standardGrammar.IsLL1 :=
  (Analysis.isLL1_iff standardGrammar_wellFormed).mp (by decide +kernel)

theorem standardGrammar_fits : Table.Fits standardGrammar registry := by
  unfold Table.Fits
  decide +kernel

end Language

theorem Compiler.standard_eq {grammar : Grammar} {table : Table}
    (made : Language.grammar Language.registry.category? = .ok grammar)
    (built : Table.build (Analysis.ofGrammar grammar) Language.registry = .ok table) :
    Compiler.standard = .ok ⟨Analysis.ofGrammar grammar, table⟩ := by
  unfold standard ofGrammar
  rw [made]
  simp only [bind, Except.bind, built]
  rfl

theorem Compiler.standard_faithful : ∃ compiler, Compiler.standard = .ok compiler ∧
    compiler.table.Faithful Language.standardGrammar := by
  obtain ⟨table, built, faithful, -⟩ :=
    Table.build_faithful Language.standardGrammar_wellFormed Language.standardGrammar_fits
  exact ⟨_, standard_eq Language.grammar_eq built, faithful⟩

/-- A text that was parsed was read to its end, which left the tables. -/
theorem Compiler.parse_eq_ok {compiler : Compiler} {text : Text} {halting : Bool} {tree : SyntaxTree}
    {environment : Environment} (parsed : compiler.parse text halting = .ok (tree, environment)) :
    Parser.parse { table := compiler.table, halting } (Language.lexFrom .empty text).1 = .ok tree ∧
      environment = (Language.lexFrom .empty text).2.environment := by
  simp only [parse, parseIn] at parsed
  cases found : Parser.parse { table := compiler.table, halting } (Language.lexFrom .empty text).1 with
  | error failure => rw [found] at parsed; cases parsed
  | ok result => rw [found] at parsed; cases parsed; exact ⟨rfl, rfl⟩

end ThreeAddress

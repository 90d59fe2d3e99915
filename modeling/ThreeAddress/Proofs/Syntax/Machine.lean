import ThreeAddress.Proofs.Arena.Denotation
import ThreeAddress.Proofs.Syntax.Descent
import ThreeAddress.Syntax.Parser

/-!
Parsing step by step.

What a step can do is told by its cases, and everything that is said of parses goes by these cases.
-/

namespace ThreeAddress

namespace ParseState

/-- The node of a terminal holds the current token, and the next one is looked at. -/
def matched (state : ParseState) (id : Nat) (name : Text) (token : Token) (source : TokenSource) :
    ParseState :=
  { token, source
    arena := state.arena.setValue id
      { symbol := .terminal name state.token.category, token := some state.token } }

/-- A node has a child for every symbol of a body. -/
def expanded (state : ParseState) (id : Nat) (production : Production) : ParseState :=
  { state with arena :=
      (state.arena.appendAll id (production.body.map fun symbol => { symbol })).2 }

end ParseState

namespace Parser

variable {state : ParseState} {name : Text} {production : Production}

/-- The symbols of a body with the numbers of their nodes, which come behind all nodes that are there. -/
def numbered (production : Production) (state : ParseState) : Stack :=
  (List.range' state.arena.size production.body.length).zip production.body

theorem map_snd_numbered (production : Production) (state : ParseState) :
    (numbered production state).map Prod.snd = production.body := by
  simp [numbered, List.map_snd_zip]

theorem map_fst_numbered (production : Production) (state : ParseState) :
    (numbered production state).map Prod.fst =
      List.range' state.arena.size production.body.length := by
  simp [numbered, List.map_fst_zip]

/-- A stack that is not empty and its state become others by one step. -/
def Steps (parser : Parser) (one other : Stack × ParseState) : Prop :=
  one.1 ≠ [] ∧ parser.step one.1 one.2 = .ok other

/-- A stack and its state become others by some steps. -/
abbrev Reaches (parser : Parser) : Stack × ParseState → Stack × ParseState → Prop :=
  Relation.ReflTransGen parser.Steps

/-- What a step does. -/
inductive Moves (parser : Parser) (state : ParseState) :
    Stack → Except Failure (Stack × ParseState) → Prop where
  | done : Moves parser state [] (.ok ([], state))
  | ended (id : Nat) (name : Text) (category : Category) (rest : Stack)
      (ended : state.token.isEnd = true) :
      Moves parser state ((id, .terminal name category) :: rest)
        (.error (parser.mismatch .leftoverStack name state.token))
  | unexpected (id : Nat) (name : Text) {category : Category} (rest : Stack)
      (more : state.token.isEnd = false) (other : state.token.category ≠ category) :
      Moves parser state ((id, .terminal name category) :: rest)
        (.error (parser.mismatch .unexpectedToken name state.token))
  | unread (id : Nat) (name : Text) (rest : Stack) {failure : Failure}
      (more : state.token.isEnd = false) (failed : request state.source = .error failure) :
      Moves parser state ((id, .terminal name state.token.category) :: rest) (.error failure)
  | matched (id : Nat) (name : Text) (rest : Stack) {token : Token} {source : TokenSource}
      (more : state.token.isEnd = false) (requested : request state.source = .ok (token, source)) :
      Moves parser state ((id, .terminal name state.token.category) :: rest)
        (.ok (rest, state.matched id name token source))
  | refused (id : Nat) {name : Text} (rest : Stack)
      (blank : parser.table.production? name state.token.category = none) :
      Moves parser state ((id, .nonterminal name) :: rest)
        (.error (parser.refusal name state.token))
  | expanded (id : Nat) {name : Text} (rest : Stack) {production : Production}
      (predicted : parser.table.production? name state.token.category = some production) :
      Moves parser state ((id, .nonterminal name) :: rest)
        (.ok (numbered production state ++ rest, state.expanded id production))

variable {parser : Parser} {rest : Stack}

theorem step_terminal (id : Nat) (name : Text) (rest : Stack) (more : state.token.isEnd = false) :
    parser.step ((id, .terminal name state.token.category) :: rest) state =
      (request state.source).map fun (token, source) =>
        (rest, state.matched id name token source) := by
  rw [step]
  simp only [more, ne_eq, not_true_eq_false, if_false, Bool.false_eq_true, bind, Except.bind]
  cases request state.source <;> rfl

theorem step_expand (id : Nat)
    (predicted : parser.table.production? name state.token.category = some production) :
    parser.step ((id, .nonterminal name) :: rest) state =
      .ok (numbered production state ++ rest, state.expanded id production) := by
  rw [step, predicted]
  -- A production of the empty text makes no nodes, and any other as many as it has symbols.
  by_cases vanishing : production.isEpsilon = true
  · simp only [vanishing, if_true, numbered, ParseState.expanded, Production.body_eq_nil vanishing]
    rfl
  · have body := Production.body_eq_rhs (Bool.eq_false_iff.mpr vanishing)
    simp only [if_neg vanishing, numbered, ParseState.expanded, body, Arena.appendAll_fst, List.length_map]

theorem step_moves (stack : Stack) (state : ParseState) :
    parser.Moves state stack (parser.step stack state) := by
  cases stack with
  | nil => exact .done
  | cons entry rest =>
    obtain ⟨id, symbol⟩ := entry
    cases symbol with
    | terminal name category =>
      by_cases ended : state.token.isEnd = true
      · rw [step, if_pos ended]
        exact .ended id name category rest ended
      · have more := Bool.eq_false_iff.mpr ended
        by_cases same : state.token.category = category
        · subst same
          rw [step_terminal id name rest more]
          cases requested : request state.source with
          | error failure => exact .unread id name rest more requested
          | ok read => exact .matched id name rest more requested
        · rw [step, if_neg ended, if_pos same]
          exact .unexpected id name rest more same
    | nonterminal name =>
      cases predicted : parser.table.production? name state.token.category with
      | none =>
        rw [step, predicted]
        exact .refused id rest predicted
      | some production =>
        rw [step_expand id predicted]
        exact .expanded id rest predicted

/-! Runs of steps. -/

theorem run_nil (bound : Nat) (state : ParseState) : parser.run bound [] state = .ok state := by
  cases bound <;> rfl

theorem run_cons (bound : Nat) (entry : Nat × Symbol) (rest : Stack) (state : ParseState) :
    parser.run (bound + 1) (entry :: rest) state =
      match parser.step (entry :: rest) state with
      | .error failure => .error failure
      | .ok (stack, next) => parser.run bound stack next := by
  rw [run]
  cases parser.step (entry :: rest) state <;> rfl

/-- What a run of steps comes to. -/
inductive Comes (parser : Parser) (start : Stack × ParseState) : Except Failure ParseState → Prop where
  | through {state : ParseState} (reached : parser.Reaches start ([], state)) :
      Comes parser start (.ok state)
  /-- A step on the way fails. -/
  | refused {stack : Stack} {state : ParseState} {failure : Failure}
      (reached : parser.Reaches start (stack, state)) (failed : parser.step stack state = .error failure) :
      Comes parser start (.error failure)
  | endless : Comes parser start (.error .endless)

theorem run_comes (bound : Nat) (stack : Stack) (state : ParseState) :
    parser.Comes (stack, state) (parser.run bound stack state) := by
  induction bound generalizing stack state with
  | zero =>
    cases stack with
    | nil => exact .through .refl
    | cons entry rest => exact .endless
  | succ bound ih =>
    cases stack with
    | nil => exact .through .refl
    | cons entry rest =>
      rw [run_cons]
      cases stepped : parser.step (entry :: rest) state with
      | error failure => exact .refused .refl stepped
      | ok next =>
        -- What comes of the next stack is reached by one step more.
        have first : parser.Steps (entry :: rest, state) next := ⟨List.cons_ne_nil _ _, stepped⟩
        have later := ih next.1 next.2
        dsimp only
        generalize parser.run bound next.1 next.2 = result at later ⊢
        cases later with
        | through reached => exact .through (.head first reached)
        | refused reached failed => exact .refused (.head first reached) failed
        | endless => exact .endless

end Parser

end ThreeAddress

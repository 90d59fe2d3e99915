import ThreeAddress.Proofs.Syntax.Decision

/-!
Keeping track of a parse.

If the symbols of a grammar lead from mode to mode, and every token that is read keeps the state in step with the mode, then a parser reads a source only where the modes allow it.
-/

namespace ThreeAddress

namespace Parser

/-- Modes that a parser over a grammar stays in step with. -/
structure Tracks {σ : Type} (grammar : Grammar) (after : σ → Symbol → Option σ)
    (good : σ → ParseState → Prop) : Prop where
  /-- The nodes made so far do not matter. -/
  renumbered : ∀ {mode state other}, good mode state → other.token = state.token →
    other.source = state.source → good mode other
  reads : ∀ {mode next state name}, good mode state → state.token.isEnd = false →
    after mode (.terminal name state.token.category) = some next →
    (∃ error, request state.source = .error (.diagnostic error)) ∨
      ∃ token source, request state.source = .ok (token, source) ∧
        good next { state with token, source }
  /-- The body of a production leads to where its non-terminal does. -/
  closed : ∀ production ∈ grammar.productions, ∀ mode next,
    after mode (.nonterminal production.lhs) = some next →
    production.body.foldlM after mode = some next

variable {parser : Parser} {grammar : Grammar} {σ : Type} {after : σ → Symbol → Option σ}
  {good : σ → ParseState → Prop}

theorem mismatch_diagnostic (reporting : parser.halting = false) (kind : Mismatch)
    (expected : Text) (token : Token) :
    ∃ error, parser.mismatch kind expected token = .diagnostic error := by
  simp [mismatch, reporting]

/-- What a parser keeps up as long as it goes on: a token that is asked for keeps it or is an error, and a body keeps it in the place of its non-terminal. -/
structure Sustains (grammar : Grammar) (good : Stack → ParseState → Prop) : Prop where
  reads : ∀ {id name rest state}, good ((id, .terminal name state.token.category) :: rest) state →
    state.token.isEnd = false →
    (∃ error, request state.source = .error (.diagnostic error)) ∨
      ∃ token source, request state.source = .ok (token, source) ∧
        good rest (state.matched id name token source)
  expands : ∀ {id rest state}, ∀ production ∈ grammar.productions,
    good ((id, .nonterminal production.lhs) :: rest) state →
    good (numbered production state ++ rest) (state.expanded id production)

namespace Sustains

variable {good : Stack → ParseState → Prop} (sustains : Sustains grammar good)
  (reporting : parser.halting = false) (faithful : parser.table.Faithful grammar)
include sustains reporting faithful

variable {stack : Stack} {state : ParseState}

theorem step (holds : good stack state) :
    (∃ error, parser.step stack state = .error (.diagnostic error)) ∨
      ∃ stack' state', parser.step stack state = .ok (stack', state') ∧ good stack' state' := by
  have moves := parser.step_moves stack state
  generalize parser.step stack state = result at moves ⊢
  cases moves with
  | done => exact .inr ⟨_, _, rfl, holds⟩
  | ended | unexpected | refused =>
    obtain ⟨error, reported⟩ := mismatch_diagnostic reporting _ _ _
    exact .inl ⟨error, congrArg Except.error reported⟩
  | unread _ _ _ more failed =>
    rcases sustains.reads holds more with ⟨error, requested⟩ | ⟨_, _, requested, -⟩
    · cases failed.symm.trans requested
      exact .inl ⟨error, rfl⟩
    · cases failed.symm.trans requested
  | matched _ _ _ more answered =>
    rcases sustains.reads holds more with ⟨_, requested⟩ | ⟨_, _, requested, there⟩
    · cases answered.symm.trans requested
    · cases answered.symm.trans requested
      exact .inr ⟨_, _, rfl, there⟩
  | expanded _ _ predicted =>
    obtain ⟨member, rfl⟩ := faithful.listed _ _ _ predicted
    exact .inr ⟨_, _, rfl, sustains.expands _ member holds⟩

theorem reaches {one other : Stack × ParseState} (reached : parser.Reaches one other)
    (holds : good one.1 one.2) : good other.1 other.2 := by
  induction reached with
  | refl => exact holds
  | tail _ step ih =>
    rcases sustains.step reporting faithful ih with ⟨_, failed⟩ | ⟨_, _, ran, there⟩
    · cases failed.symm.trans step.2
    · cases ran.symm.trans step.2
      exact there

/-- Where a parse fails it reports an error. -/
theorem halts {failure : Failure} (holds : good stack state)
    (halts : parser.Halts stack state (.error failure)) : ∃ error, failure = .diagnostic error := by
  cases halts with
  | leftover => exact mismatch_diagnostic reporting _ _ _
  | refused failed =>
    rcases sustains.step reporting faithful holds with ⟨error, same⟩ | ⟨_, _, ran, -⟩
    · cases failed.symm.trans same
      exact ⟨error, rfl⟩
    · cases failed.symm.trans ran

end Sustains

/-- The state is in step with a mode, from which the symbols on the stack lead to the last one. -/
def Tracked (after : σ → Symbol → Option σ) (good : σ → ParseState → Prop) (last : σ)
    (stack : Stack) (state : ParseState) : Prop :=
  ∃ mode, good mode state ∧ (stack.map Prod.snd).foldlM after mode = some last

theorem Tracks.sustains (tracks : Tracks grammar after good) (last : σ) :
    Sustains grammar (Tracked after good last) where
  reads := by
    rintro id name rest state ⟨mode, here, leads⟩ more
    obtain ⟨next, first, others⟩ := Option.bind_eq_some_iff.mp leads
    exact (tracks.reads here more first).imp_right fun ⟨token, source, requested, there⟩ =>
      ⟨token, source, requested, next, tracks.renumbered there rfl rfl, others⟩
  expands := by
    rintro id rest state production member ⟨mode, here, leads⟩
    obtain ⟨next, first, others⟩ := Option.bind_eq_some_iff.mp leads
    refine ⟨mode, tracks.renumbered here rfl rfl, ?_⟩
    rw [List.map_append, map_snd_numbered, List.foldlM_append, tracks.closed _ member _ _ first]
    exact others

/-- A parse that stays in step with the modes gives a tree, reports an error or goes on without end. -/
theorem Tracks.parse (tracks : Tracks grammar after good) (reporting : parser.halting = false)
    (faithful : parser.table.Faithful grammar) {mode last : σ} {source rest : TokenSource}
    {token : Token} (requested : request source = .ok (token, rest))
    (start : good mode (parser.initial token rest).2)
    (leads : after mode (.nonterminal parser.table.grammar.start) = some last) :
    parser.parse source = .error .endless ∨ (∃ tree, parser.parse source = .ok tree) ∨
      ∃ error, parser.parse source = .error (.diagnostic error) := by
  rcases parse_halts requested with endless | ⟨stack, state, reached, halts⟩
  · exact .inl endless
  · right
    cases parsed : parser.parse source with
    | ok tree => exact .inl ⟨tree, rfl⟩
    | error failure =>
      rw [parsed] at halts
      have tracked := (tracks.sustains last).reaches reporting faithful reached
        ⟨mode, start, by simp [initial, leads]⟩
      obtain ⟨error, rfl⟩ := (tracks.sustains last).halts reporting faithful tracked halts
      exact .inr ⟨error, rfl⟩

end Parser

end ThreeAddress

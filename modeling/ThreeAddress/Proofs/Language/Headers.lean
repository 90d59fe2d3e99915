import ThreeAddress.Proofs.Language.Guards

/-!
When reading a program comes to a fault.

Parameters belong to the function being read, but a header that no parenthesis closes is open still when the last brace of its function has ended it.
Main statement: a name that would be a parameter in such a header is all that leads to a fault.
-/

namespace ThreeAddress

open List

namespace TokenSource

/-- What a request gives, the first one having number zero. -/
def answer (source : TokenSource) : Nat → Reading
  | 0 => source.next.1
  | count + 1 => answer source.next.2 count

theorem forall_answer_iff (holds : Reading → Prop) (source : TokenSource)
    (atEnd : holds { outcome := .ok source.last }) :
    (∀ count, holds (source.answer count)) ↔ ∀ reading ∈ source.readings, holds reading := by
  obtain ⟨readings, last⟩ := source
  induction readings with
  | nil =>
    refine ⟨fun _ => by simp, fun _ count => ?_⟩
    induction count with
    | zero => exact atEnd
    | succ count ih => exact ih
  | cons reading rest ih =>
    rw [forall_mem_cons]
    refine ⟨fun all => ⟨all 0, (ih atEnd).mp fun count => all (count + 1)⟩, fun both count => ?_⟩
    cases count with
    | zero => exact both.1
    | succ count => exact (ih atEnd).mpr both.2 count

end TokenSource

/-- The token of a piece that gives one. -/
def PieceOutcome.token? : PieceOutcome → Option Token
  | token found _ => some found
  | _ => none

namespace Language

/-! The tokens that are read in front of a piece. -/

/-- The tokens of some pieces and the state behind them, if none of the pieces leads to a fault. -/
def readOn : List (Piece WordKind) → LexerState → Option (List Token × LexerState)
  | [], state => some ([], state)
  | piece :: rest, state =>
    match interpret piece state with
    | (.fault _, _) => none
    | (outcome, after) =>
      (readOn rest after).map fun result => (outcome.token?.toList ++ result.1, result.2)

variable {after state : LexerState} {piece : Piece WordKind} {cause : Fault} {text : Text}
  {outcome : PieceOutcome}

theorem readOn_cons (read : interpret piece state = (outcome, after))
    (passed : ∀ found, outcome ≠ .fault found) (rest : List (Piece WordKind)) :
    readOn (piece :: rest) state =
      (readOn rest after).map fun result => (outcome.token?.toList ++ result.1, result.2) := by
  rw [readOn, read]
  cases outcome with
  | fault found => exact absurd rfl (passed found)
  | skipped | rejected | token => rfl

/-- Some piece leads to a fault, once those in front of it are read. -/
def Meets (cause : Fault) (pieces : List (Piece WordKind)) (state : LexerState) : Prop :=
  ∃ before piece later result after, pieces = before ++ piece :: later ∧
    readOn before state = some result ∧ interpret piece result.2 = (.fault cause, after)

variable {rest : List (Piece WordKind)}

theorem meets_cons (read : interpret piece state = (outcome, after))
    (passed : ∀ found, outcome ≠ .fault found) :
    Meets cause (piece :: rest) state ↔ Meets cause rest after := by
  constructor
  · rintro ⟨before, faulty, later, result, last, split, reached, fault⟩
    cases before with
    | nil =>
      cases split
      cases reached
      rw [read] at fault
      exact absurd (congrArg Prod.fst fault) (passed cause)
    | cons first others =>
      cases split
      rw [readOn_cons read passed] at reached
      obtain ⟨inner, isInner, rfl⟩ := Option.map_eq_some_iff.mp reached
      exact ⟨others, faulty, later, inner, last, rfl, isInner, fault⟩
  · rintro ⟨before, faulty, later, result, last, rfl, reached, fault⟩
    have first := readOn_cons read passed before
    rw [reached, Option.map_some] at first
    exact ⟨piece :: before, faulty, later, _, last, rfl, first, fault⟩

/-- A piece that leads to a fault is the only one that does. -/
theorem meets_of_fault {found : Fault} (read : interpret piece state = (.fault found, after)) :
    Meets cause (piece :: rest) state ↔ found = cause := by
  constructor
  · rintro ⟨before, faulty, later, result, last, split, reached, fault⟩
    cases before with
    | nil =>
      cases split
      cases reached
      rw [read] at fault
      exact PieceOutcome.fault.inj (congrArg Prod.fst fault)
    | cons first others =>
      cases split
      rw [readOn, read] at reached
      cases reached
  · rintro rfl
    exact ⟨[], piece, rest, ([], state), after, rfl, rfl, read⟩

/-- A reading is a fault exactly if a piece leads to it. -/
theorem fault_iff_meets {last : Token} (pieces : List (Piece WordKind)) :
    ∀ (errors : List Diagnostic) (state : LexerState),
    (∃ reading ∈ (readPieces interpret last errors pieces state).1, reading.outcome = .error cause) ↔
      Meets cause pieces state := by
  induction pieces with
  | nil =>
    intro errors state
    constructor
    · rintro ⟨reading, member, fault⟩
      rw [mem_singleton.mp member] at fault
      cases fault
    · rintro ⟨before, piece, later, result, after, split, -⟩
      cases before <;> cases split
  | cons piece rest ih =>
    intro errors state
    cases read : interpret piece state with
    | mk outcome after =>
      rw [readPieces, read]
      cases outcome with
      | skipped => rw [meets_cons read nofun]; exact ih errors after
      | rejected error => rw [meets_cons read nofun]; exact ih (errors ++ [error]) after
      | fault found => rw [meets_of_fault read]; simp
      | token token more => rw [meets_cons read nofun, ← ih []]; simp

/-! What the tokens tell about the header of a function. -/

/-- A token that is read as the name of a new function behind some tokens. -/
def NamesFunction (before : List Token) (token : Token) : Prop :=
  ∃ earlier word type, before = earlier ++ [word, type] ∧ word.category = functionWord ∧
    isTypeWord type.category = true ∧ token.category = identifier ∧ token.handle.isValid = true

/-- Tokens of which the last name of a new function stands behind some and in front of others. -/
structure LastFunction (tokens front : List Token) (name : Token) (body : List Token) : Prop where
  split : tokens = front ++ name :: body
  named : NamesFunction front name
  last : ∀ inside other rest, body = inside ++ other :: rest →
    ¬ NamesFunction (front ++ name :: inside) other

/-- How many more braces some tokens open than they close. -/
def braceDepth (tokens : List Token) : Int :=
  tokens.countP (·.category = openBrace) - tokens.countP (·.category = closeBrace)

/-- Tokens behind the name of a function that hold the last brace of its body. -/
def EndsBody (body : List Token) : Prop :=
  ∃ inside brace rest, body = inside ++ brace :: rest ∧ brace.category = closeBrace ∧
    braceDepth inside = 1

/-- The last function ended without a closing parenthesis, which its header lacks still. -/
def LeavesHeaderOpen (tokens : List Token) : Prop :=
  ∃ front name body, LastFunction tokens front name body ∧
    (∀ token ∈ body, token.category ≠ closeParen) ∧ EndsBody body

/-- Tokens behind which a name would be a parameter, if parameters may follow. -/
def CallsForParameter (tokens : List Token) : Prop :=
  ∃ earlier type, tokens = earlier ++ [type] ∧ isTypeWord type.category = true ∧
    ∀ word ∈ earlier.getLast?, word.category ≠ variableWord ∧ word.category ≠ functionWord

section Snoc

variable {tokens front body : List Token} {token name : Token}

theorem snoc_eq_split {inside rest : List Token} {found : Token}
    (split : body ++ [token] = inside ++ found :: rest) :
    (rest = [] ∧ inside = body ∧ found = token) ∨
      ∃ more, rest = more ++ [token] ∧ body = inside ++ found :: more := by
  rcases eq_nil_or_concat' rest with rfl | ⟨more, last, rfl⟩
  · obtain ⟨rfl, same⟩ := append_inj' split rfl
    cases same
    exact .inl ⟨rfl, rfl, rfl⟩
  · rw [← cons_append, ← append_assoc] at split
    obtain ⟨same, isLast⟩ := append_inj' split rfl
    cases isLast
    exact .inr ⟨more, rfl, same⟩

theorem lastFunction_new (named : NamesFunction tokens token) :
    LastFunction (tokens ++ [token]) tokens token [] :=
  ⟨rfl, named, fun inside other rest split => by cases inside <;> cases split⟩

theorem LastFunction.snoc (function : LastFunction tokens front name body)
    (other : ¬ NamesFunction tokens token) :
    LastFunction (tokens ++ [token]) front name (body ++ [token]) where
  split := by rw [function.split, append_assoc, cons_append]
  named := function.named
  last inside found rest split := by
    obtain ⟨-, rfl, rfl⟩ | ⟨more, -, same⟩ := snoc_eq_split split
    · rw [← function.split]
      exact other
    · exact function.last inside found more same

theorem LastFunction.snoc_cases (function : LastFunction (tokens ++ [token]) front name body) :
    (NamesFunction tokens token ∧ body = []) ∨
      (¬ NamesFunction tokens token ∧ ∃ inside, body = inside ++ [token] ∧
        LastFunction tokens front name inside) := by
  obtain ⟨rfl, rfl, rfl⟩ | ⟨inside, rfl, same⟩ := snoc_eq_split function.split
  · exact .inl ⟨function.named, rfl⟩
  · refine .inr ⟨?_, inside, rfl, same, function.named, ?_⟩
    · rw [same]
      exact function.last inside token [] rfl
    · intro earlier found rest whole
      exact function.last earlier found (rest ++ [token]) (by simp [whole])

theorem braceDepth_snoc : braceDepth (body ++ [token]) = braceDepth body + braceDepth [token] := by
  simp only [braceDepth, countP_append, Int.natCast_add]
  omega

theorem braceDepth_single (token : Token) : braceDepth [token] =
    if token.category = openBrace then 1 else if token.category = closeBrace then -1 else 0 := by
  simp only [braceDepth, countP_singleton, decide_eq_true_eq]
  by_cases opens : token.category = openBrace
  · simp [opens, openBrace, closeBrace]
  · by_cases closes : token.category = closeBrace
    · simp [closes, openBrace, closeBrace]
    · simp [opens, closes]

theorem endsBody_snoc : EndsBody (body ++ [token]) ↔
    EndsBody body ∨ token.category = closeBrace ∧ braceDepth body = 1 := by
  constructor
  · rintro ⟨inside, brace, rest, split, isBrace, depth⟩
    obtain ⟨-, rfl, rfl⟩ | ⟨more, -, same⟩ := snoc_eq_split split
    · exact .inr ⟨isBrace, depth⟩
    · exact .inl ⟨inside, brace, more, same, isBrace, depth⟩
  · rintro (⟨inside, brace, rest, rfl, isBrace, depth⟩ | ⟨isBrace, depth⟩)
    · exact ⟨inside, brace, rest ++ [token], by simp, isBrace, depth⟩
    · exact ⟨body, token, [], rfl, isBrace, depth⟩

end Snoc

/-! What the state remembers of the tokens. -/

/-- The state behind some tokens, as far as faults depend on it. -/
structure Follows (tokens : List Token) (state : LexerState) : Prop where
  newest : state.previous = tokens.getLast?
  older : state.beforePrevious = tokens.dropLast.getLast?
  idle : (∀ front name body, ¬ LastFunction tokens front name body) →
    state.inParams = false ∧ state.function = none
  header : ∀ front name body, LastFunction tokens front name body →
    (state.inParams = true ↔ ∀ token ∈ body, token.category ≠ closeParen) ∧
    (state.function = none ↔ EndsBody body) ∧
    (state.function.isSome = true → state.depth = braceDepth body)

theorem follows_start : Follows [] { environment := .empty } where
  newest := rfl
  older := rfl
  idle _ := ⟨rfl, rfl⟩
  header front name body function := by
    have nothing := function.split
    simp at nothing

namespace Follows

variable {tokens : List Token} {state after : LexerState} {token : Token}

/-- The last token is a type exactly if the state remembers one. -/
theorem behindType_iff (follows : Follows tokens state) : state.behindType = true ↔
    ∃ earlier type, tokens = earlier ++ [type] ∧ isTypeWord type.category = true := by
  rw [LexerState.behindType, follows.newest, Option.any_eq_true]
  constructor
  · rintro ⟨type, last, typed⟩
    obtain ⟨earlier, rfl⟩ := getLast?_eq_some_iff.mp last
    exact ⟨earlier, type, rfl, typed⟩
  · rintro ⟨earlier, type, rfl, typed⟩
    exact ⟨type, getLast?_concat, typed⟩

theorem opening_eq {earlier : List Token} {type : Token}
    (follows : Follows (earlier ++ [type]) state) :
    state.opening = earlier.getLast?.map Token.category := by
  rw [LexerState.opening, follows.older, dropLast_concat]

theorem namesFunction_iff (follows : Follows tokens state) : NamesFunction tokens token ↔
    (state.behindType = true ∧ state.opening = some functionWord) ∧
      token.category = identifier ∧ token.handle.isValid = true := by
  constructor
  · rintro ⟨earlier, word, type, rfl, opens, typed, isName, valid⟩
    have split : earlier ++ [word, type] = (earlier ++ [word]) ++ [type] := by simp
    rw [split] at follows
    refine ⟨⟨follows.behindType_iff.mpr ⟨_, type, rfl, typed⟩, ?_⟩, isName, valid⟩
    rw [follows.opening_eq, getLast?_concat, Option.map_some, opens]
  · rintro ⟨⟨typed, opens⟩, isName, valid⟩
    obtain ⟨earlier, type, rfl, isType⟩ := follows.behindType_iff.mp typed
    rw [follows.opening_eq] at opens
    obtain ⟨word, last, isWord⟩ := Option.map_eq_some_iff.mp opens
    obtain ⟨front, rfl⟩ := getLast?_eq_some_iff.mp last
    exact ⟨front, word, type, by simp, isWord, isType, isName, valid⟩

/-- Whether a name would be a parameter shows in the last two tokens. -/
theorem callsForParameter_iff (follows : Follows tokens state) : CallsForParameter tokens ↔
    state.behindType = true ∧ state.opening ≠ some variableWord ∧
      state.opening ≠ some functionWord := by
  constructor
  · rintro ⟨earlier, type, rfl, typed, unopened⟩
    refine ⟨follows.behindType_iff.mpr ⟨earlier, type, rfl, typed⟩, ?_⟩
    rw [follows.opening_eq]
    cases last : earlier.getLast? with
    | none => exact ⟨nofun, nofun⟩
    | some word =>
      obtain ⟨notVariable, notFunction⟩ := unopened word last
      exact ⟨by simpa using notVariable, by simpa using notFunction⟩
  · rintro ⟨typed, notVariable, notFunction⟩
    obtain ⟨earlier, type, rfl, isType⟩ := follows.behindType_iff.mp typed
    rw [follows.opening_eq] at notVariable notFunction
    refine ⟨earlier, type, rfl, isType, fun word last => ?_⟩
    rw [Option.mem_def.mp last] at notVariable notFunction
    exact ⟨by simpa using notVariable, by simpa using notFunction⟩

/-- The header is open without a function exactly if the last function left it open. -/
theorem leavesHeaderOpen_iff (follows : Follows tokens state) :
    LeavesHeaderOpen tokens ↔ state.inParams = true ∧ state.function = none := by
  constructor
  · rintro ⟨front, name, body, function, unclosed, ends⟩
    obtain ⟨listing, reading, -⟩ := follows.header front name body function
    exact ⟨listing.mpr unclosed, reading.mpr ends⟩
  · rintro ⟨listing, idle⟩
    -- Parameters may follow only behind the name of a function.
    obtain ⟨front, name, body, function⟩ :
        ∃ front name body, LastFunction tokens front name body := by
      refine Classical.byContradiction fun none => ?_
      simp only [not_exists] at none
      rw [(follows.idle none).1] at listing
      cases listing
    obtain ⟨closes, ends, -⟩ := follows.header front name body function
    exact ⟨front, name, body, function, closes.mp listing, ends.mp idle⟩

theorem newFunction (window : after.previous = some token ∧ after.beforePrevious = state.previous)
    (follows : Follows tokens state) (named : NamesFunction tokens token)
    (listing : after.inParams = true) (reading : after.function.isSome = true)
    (depth : after.depth = 0) : Follows (tokens ++ [token]) after where
  newest := by rw [window.1, getLast?_concat]
  older := by rw [window.2, dropLast_concat, follows.newest]
  idle none := absurd (lastFunction_new named) (none _ _ _)
  header front name body function := by
    rcases function.snoc_cases with ⟨-, rfl⟩ | ⟨other, -⟩
    · refine ⟨by simp [listing], ?_, fun _ => by rw [depth]; rfl⟩
      rw [← Option.not_isSome_iff_eq_none, reading]
      refine ⟨fun idle => absurd rfl idle, ?_⟩
      rintro ⟨inside, brace, rest, split, -⟩
      cases inside <;> cases split
    · exact absurd named other

section

variable (follows : Follows tokens state)
include follows

theorem snoc (window : after.previous = some token ∧ after.beforePrevious = state.previous)
    (other : ¬ NamesFunction tokens token)
    (listing : after.inParams = true ↔ state.inParams = true ∧ token.category ≠ closeParen)
    (reading : after.function =
      if token.category = closeBrace ∧ state.depth = 1 then none else state.function)
    (depth : after.function.isSome = true → after.depth = state.depth + braceDepth [token]) :
    Follows (tokens ++ [token]) after where
  newest := by rw [window.1, getLast?_concat]
  older := by rw [window.2, dropLast_concat, follows.newest]
  idle none := by
    obtain ⟨unlisted, idle⟩ := follows.idle fun front name body function =>
      none front name (body ++ [token]) (function.snoc other)
    refine ⟨?_, by rw [reading, idle, ite_self]⟩
    rw [Bool.eq_false_iff, ne_eq, listing, unlisted]
    exact fun both => Bool.false_ne_true both.1
  header front name body function := by
    rcases function.snoc_cases with ⟨named, -⟩ | ⟨-, inside, rfl, earlier⟩
    · exact absurd named other
    · obtain ⟨closes, ends, counts⟩ := follows.header front name inside earlier
      refine ⟨?_, ?_, fun isSome => ?_⟩
      · rw [listing, closes, forall_mem_append, forall_mem_singleton]
      · rw [endsBody_snoc, ← ends, reading]
        cases held : state.function with
        | none => simp
        | some function =>
          rw [counts (by rw [held]; rfl)]
          simp
      · -- The function is being read still, so it was before.
        have before : state.function.isSome = true := by
          rw [reading] at isSome
          split at isSome
          · cases isSome
          · exact isSome
        rw [depth isSome, braceDepth_snoc, counts before]

theorem quiet (other : ¬ NamesFunction tokens token)
    (notParen : token.category ≠ closeParen)
    (notBrace : token.category ≠ openBrace ∧ token.category ≠ closeBrace)
    (window : after.previous = some token ∧ after.beforePrevious = state.previous)
    (listing : after.inParams = state.inParams) (reading : after.function = state.function)
    (depth : after.depth = state.depth) : Follows (tokens ++ [token]) after := by
  refine follows.snoc window other (by simp [listing, notParen]) ?_ fun _ => ?_
  · rw [reading, if_neg fun both => notBrace.2 both.1]
  · rw [depth, braceDepth_single, if_neg notBrace.1, if_neg notBrace.2, Int.add_zero]

theorem flawed (absent : token.handle = Handle.absent)
    (category : token.category = identifier ∨ token.category = trueWord ∨
      token.category = falseWord) : Follows (tokens ++ [token]) (state.remember token) := by
  refine follows.quiet ?_ ?_ ?_ ⟨rfl, rfl⟩ rfl rfl rfl
  · rintro ⟨-, -, -, -, -, -, -, valid⟩
    rw [absent] at valid
    cases valid
  · rcases category with is | is | is <;> rw [is] <;> decide
  · rcases category with is | is | is <;> rw [is] <;> decide

theorem step (step : Step state token after) :
    Follows (tokens ++ [token]) after := by
  -- Only a name behind the word for functions names one.
  have another : (state.behindType = true → state.opening = some functionWord →
      token.category ≠ identifier) → ¬ NamesFunction tokens token := by
    rw [follows.namesFunction_iff]
    exact fun none both => none both.1.1 both.1.2 both.2.1
  have single := braceDepth_single token
  cases step with
  | plain isOther _ _ _ notParen notBrace =>
    refine follows.snoc ⟨rfl, rfl⟩ (another fun _ _ => isOther) (by simp [LexerState.remember, notParen])
      ?_ fun isSome => ?_
    · split
      · next closes => exact notBrace (.inr closes.1)
      · rfl
    · have noBrace : ¬ (token.category = openBrace ∨ token.category = closeBrace) := fun isBrace => by
        rw [LexerState.remember, notBrace isBrace] at isSome
        cases isSome
      rw [not_or] at noBrace
      rw [single, if_neg noBrace.1, if_neg noBrace.2, Int.add_zero]
      rfl
  | literal category =>
    refine follows.quiet (another fun _ _ => ?_) ?_ ?_ ⟨rfl, rfl⟩ rfl rfl rfl
    all_goals rcases category with is | is | is <;> rw [is] <;> decide
  | resolved category free =>
    refine follows.quiet (another fun typed opened => absurd opened (free typed).2.1) ?_ ?_
      ⟨rfl, rfl⟩ rfl rfl rfl
    all_goals rw [category]; decide
  | newVariable category _ opened =>
    refine follows.quiet (another fun _ opens => ?_) ?_ ?_ ⟨rfl, rfl⟩ rfl rfl rfl
    · rw [opened] at opens
      exact absurd opens (by decide)
    all_goals rw [category]; decide
  | newFunction category typed opened declared =>
    have valid : token.handle.isValid = true := by
      rw [(SymbolTable.declare_ok declared).1]
      exact decide_eq_true (Int.natCast_nonneg _)
    exact newFunction ⟨rfl, rfl⟩ follows
      (follows.namesFunction_iff.mpr ⟨⟨typed, opened⟩, category, valid⟩) rfl rfl rfl
  | newParameter category _ _ notFunction =>
    refine follows.quiet (another fun _ opens => absurd opens notFunction) ?_ ?_ ⟨rfl, rfl⟩ rfl rfl rfl
    all_goals rw [category]; decide
  | start category | stop category =>
    refine follows.quiet (another fun _ _ => ?_) ?_ ?_ ⟨rfl, rfl⟩ rfl rfl rfl
    all_goals rw [category]; decide
  | closeParen category =>
    refine follows.snoc ⟨rfl, rfl⟩ (another fun _ _ => by rw [category]; decide)
      (by simp [LexerState.remember, category]) ?_ fun _ => ?_
    · rw [category, if_neg (fun both => absurd both.1 (by decide))]
      rfl
    · rw [single, category]
      exact (Int.add_zero _).symm
  | openBrace category inFunction =>
    refine follows.snoc ⟨rfl, rfl⟩ (another fun _ _ => by rw [category]; decide)
      (by simp [LexerState.remember, category, openBrace, closeParen]) ?_ fun _ => ?_
    · rw [category, if_neg (fun both => absurd both.1 (by decide))]
      rfl
    · rw [single, if_pos category]
      rfl
  | closeBrace category inFunction inner =>
    refine follows.snoc ⟨rfl, rfl⟩ (another fun _ _ => by rw [category]; decide)
      (by simp [LexerState.remember, category, closeBrace, closeParen]) ?_ fun _ => ?_
    · rw [if_neg (fun both => inner both.2)]
      rfl
    · rw [single, category]
      rfl
  | endFunction category inFunction outermost popped =>
    refine follows.snoc ⟨rfl, rfl⟩ (another fun _ _ => by rw [category]; decide)
      (by simp [LexerState.remember, category, closeBrace, closeParen]) ?_ fun isSome => ?_
    · rw [if_pos ⟨category, outermost⟩]
      rfl
    · cases isSome

end

end Follows

/-! Reading a whole text. -/

theorem LexerState.Guarded.closable (guarded : state.Guarded) : state.Closable :=
  ⟨fun inMain => guarded.exists_pop (.inl inMain), fun inFunction _ => guarded.exists_pop (.inr inFunction)⟩

theorem name_ne_mainScope (member : piece ∈ lexicon.pieces text) (kind : piece.kind = some .name) :
    piece.text ≠ mainScope := by
  obtain ⟨rule, listed, isName, accepted⟩ := Lexicon.accepts_of_mem_pieces member kind
  have refused : ∀ rule ∈ lexicalRules, rule.2 = .name → rule.1.accepts mainScope = false := by decide
  intro same
  rw [same, refused rule listed isName] at accepted
  cases accepted

theorem follows_of_readOn {pieces : List (Piece WordKind)} :
    ∀ {seen : List Token} {state : LexerState} {result : List Token × LexerState},
    (∀ piece ∈ pieces, piece ∈ lexicon.pieces text) → Follows seen state → state.Guarded →
    readOn pieces state = some result → Follows (seen ++ result.1) result.2 ∧ result.2.Guarded := by
  induction pieces with
  | nil =>
    rintro seen state result - follows guarded ⟨rfl⟩
    rw [append_nil]
    exact ⟨follows, guarded⟩
  | cons piece rest ih =>
    intro seen state result inside follows guarded read
    have here := inside piece mem_cons_self
    have behind := (forall_mem_cons.mp inside).2
    have outcome := interpret_outcome (isNumbered_of_mem here) guarded.closable
    rw [readOn] at read
    generalize interpret piece state = interpreted at outcome read
    cases outcome with
    | stray => cases read
    | skipped | rejected =>
      obtain ⟨inner, isInner, rfl⟩ := Option.map_eq_some_iff.mp read
      exact ih behind follows guarded isInner
    | flawed error absent category =>
      obtain ⟨inner, isInner, rfl⟩ := Option.map_eq_some_iff.mp read
      have later := ih behind (follows.flawed absent category) guarded isInner
      rwa [append_assoc] at later
    | read step _ named =>
      obtain ⟨inner, isInner, rfl⟩ := Option.map_eq_some_iff.mp read
      have later := ih behind (follows.step step) (step.guarded guarded fun isName =>
        (named isName).2 ▸ name_ne_mainScope here (named isName).1) isInner
      rwa [append_assoc] at later

/-- Behind tokens that a state follows, a piece leads to a fault exactly if it is a stray name. -/
theorem interpret_fault_iff {tokens : List Token} (member : piece ∈ lexicon.pieces text)
    (follows : Follows tokens state) (guarded : state.Guarded) :
    (∃ after, interpret piece state = (.fault cause, after)) ↔
      cause = .outOfBounds ∧ piece.kind = some .name ∧ LeavesHeaderOpen tokens ∧
        CallsForParameter tokens ∧ state.table.scopes.lookup? state.table.here piece.text = none := by
  constructor
  · rintro ⟨after, fault⟩
    have outcome := interpret_outcome (isNumbered_of_mem member) guarded.closable
    rw [fault] at outcome
    cases outcome with
    | stray kind stray =>
      exact ⟨rfl, kind, follows.leavesHeaderOpen_iff.mpr ⟨stray.header, stray.idle⟩,
        follows.callsForParameter_iff.mpr ⟨stray.typed, stray.notVariable, stray.notFunction⟩,
        stray.fresh⟩
  · rintro ⟨rfl, kind, unclosed, calls, fresh⟩
    obtain ⟨header, idle⟩ := follows.leavesHeaderOpen_iff.mp unclosed
    obtain ⟨typed, notVariable, notFunction⟩ := follows.callsForParameter_iff.mp calls
    obtain ⟨after, run⟩ := name_of_stray ⟨typed, notVariable, notFunction, header, idle, fresh⟩
    exact ⟨after, by simp only [interpret, kind, run, finish]⟩

/-- Reading a text from the start meets a fault exactly at a new name in a header that was left open. -/
theorem meets_iff :
    Meets cause (lexicon.pieces text) { environment := .empty } ↔ cause = .outOfBounds ∧
        ∃ before piece later tokens state, lexicon.pieces text = before ++ piece :: later ∧
          readOn before { environment := .empty } = some (tokens, state) ∧
          piece.kind = some .name ∧ LeavesHeaderOpen tokens ∧ CallsForParameter tokens ∧
          state.table.scopes.lookup? state.table.here piece.text = none := by
  have reached : ∀ {before later : List (Piece WordKind)} {piece : Piece WordKind}
      {result : List Token × LexerState}, lexicon.pieces text = before ++ piece :: later →
      readOn before { environment := .empty } = some result →
      piece ∈ lexicon.pieces text ∧ Follows result.1 result.2 ∧ result.2.Guarded := by
    intro before later piece result split read
    have inside : ∀ other ∈ before, other ∈ lexicon.pieces text := fun other member => by
      rw [split]
      exact mem_append_left _ member
    exact ⟨by simp [split], follows_of_readOn inside follows_start (Grounded.start nofun) read⟩
  constructor
  · rintro ⟨before, piece, later, ⟨tokens, state⟩, after, split, read, fault⟩
    obtain ⟨member, follows, guarded⟩ := reached split read
    obtain ⟨isCause, stray⟩ := (interpret_fault_iff member follows guarded).mp ⟨after, fault⟩
    exact ⟨isCause, before, piece, later, tokens, state, split, read, stray⟩
  · rintro ⟨isCause, before, piece, later, tokens, state, split, read, stray⟩
    obtain ⟨member, follows, guarded⟩ := reached split read
    obtain ⟨after, fault⟩ := (interpret_fault_iff member follows guarded).mpr ⟨isCause, stray⟩
    exact ⟨before, piece, later, (tokens, state), after, split, read, fault⟩

/--
Every request for a token of a text is answered by one, however the words follow each other, with one exception.

A function that ended without a closing parenthesis leaves its header open, and a new name that would be a parameter there leads to a fault.
No other fault is met, so that scopes are closed only where one is open.
-/
theorem requests_answered_iff (text : Text) :
    ((∀ count, ∃ token, ((lexFrom .empty text).1.answer count).outcome = .ok token) ↔
      ¬ ∃ before piece later tokens state, lexicon.pieces text = before ++ piece :: later ∧
        readOn before { environment := .empty } = some (tokens, state) ∧
        piece.kind = some .name ∧ LeavesHeaderOpen tokens ∧ CallsForParameter tokens ∧
        state.table.scopes.lookup? state.table.here piece.text = none) ∧
    ∀ count cause, ((lexFrom .empty text).1.answer count).outcome = .error cause →
      cause = .outOfBounds := by
  have faults := fun cause => (@fault_iff_meets cause (Token.atEnd text.length)
    (lexicon.pieces text) [] { environment := .empty }).trans meets_iff
  constructor
  · refine (TokenSource.forall_answer_iff (fun reading => ∃ token, reading.outcome = .ok token)
      _ ⟨_, rfl⟩).trans ?_
    constructor
    · intro answered met
      obtain ⟨reading, member, fault⟩ := (faults .outOfBounds).mpr ⟨rfl, met⟩
      obtain ⟨token, read⟩ := answered reading member
      rw [fault] at read
      cases read
    · intro unmet reading member
      cases outcome : reading.outcome with
      | ok token => exact ⟨token, rfl⟩
      | error cause => exact absurd ((faults cause).mp ⟨reading, member, outcome⟩).2 unmet
  · refine (TokenSource.forall_answer_iff (fun reading => ∀ cause, reading.outcome = .error cause →
      cause = .outOfBounds) _ nofun).mpr fun reading member cause outcome => ?_
    exact ((faults cause).mp ⟨reading, member, outcome⟩).1

/-- Behind a function without parentheses a name with a type leads to a fault. -/
theorem header_without_parentheses_faults :
    ((lexFrom .empty "func int #f \x7b \x7d int #x").1.answer 6).outcome =
      .error .outOfBounds := by
  rfl

end Language

end ThreeAddress

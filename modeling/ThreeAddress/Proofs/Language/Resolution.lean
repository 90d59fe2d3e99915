import ThreeAddress.Proofs.Language.Replay
import ThreeAddress.Proofs.Language.Tokens

/-!
Names stand for what the scopes of a program say.

The lexer knows the last two words and no tree, and still is in step with a replay of the leaves.
-/

namespace ThreeAddress

open List

namespace Language

variable {state after : LexerState} {token : Token} {table later : SymbolTable} {scope : Nat}

/-- The symbol of a token, where it is a name. -/
def symbolOf? (token : Token) : Option Handle :=
  if token.category = identifier then some token.handle else none

namespace Replay

variable {replay : Replay}

/-- A replay that takes a leaf in with the symbol of its token, and holds the symbols of a table then. -/
def Follows (replay : Replay) (leaf : Token × Act) (table : SymbolTable) : Prop :=
  ∃ further, replay.step leaf = some (symbolOf? leaf.1, further) ∧ further.Mirrors table

namespace Mirrors

section

variable (mirrors : replay.Mirrors table)
include mirrors

/-- A word without a name that changes no symbol is passed over. -/
theorem follows_plain (notName : token.category ≠ identifier) :
    replay.Follows (token, .plain) table :=
  ⟨replay, by simp [step, symbolOf?, notName], mirrors⟩

theorem follows_openMain (path : table.scopes.path = [0])
    (notName : token.category ≠ identifier) :
    replay.Follows (token, .openMain) (table.push mainScope) := by
  have top := mirrors.top path
  exact ⟨{ replay with locals := [[]] }, by simp [step, symbolOf?, notName, top],
    mirrors.push top mainScope⟩

theorem follows_close (path : table.scopes.path = [scope, 0])
    (notName : token.category ≠ identifier) :
    replay.Follows (token, .close) { table with scopes.path := [0] } := by
  obtain ⟨inner, isInner⟩ := mirrors.nested path
  exact ⟨{ replay with locals := [] }, by simp [step, symbolOf?, notName, isInner], mirrors.pop⟩

theorem follows_name (sound : table.Sound)
    (path : table.scopes.path = [scope, 0]) (category : token.category = identifier)
    (found : table.resolve token.lexeme = .ok token.handle) :
    replay.Follows (token, .plain) table := by
  obtain ⟨inner, isInner⟩ := mirrors.nested path
  exact ⟨replay, by simp [step, symbolOf?, category, mirrors.resolve sound isInner found], mirrors⟩

theorem follows_declare (path : table.scopes.path = [scope, 0])
    (category : token.category = identifier) {entry : Entry} (same : entry.name = token.lexeme)
    (declared : table.declare table.here entry = .ok (token.handle, later)) :
    replay.Follows (token, .declare) later := by
  obtain ⟨inner, isInner⟩ := mirrors.nested path
  obtain ⟨unbound, handle, mirrors⟩ := mirrors.declare isInner declared
  rw [same] at unbound mirrors
  refine ⟨_, ?_, mirrors⟩
  rw [symbolOf?, if_pos category, handle]
  exact step_declare isInner unbound

theorem follows_declareFunction (path : table.scopes.path = [0])
    (category : token.category = identifier) {returns : ValueType}
    (declared : table.declareFunction token.lexeme returns = .ok (token.handle, later)) :
    replay.Follows (token, .declareFunction) (later.openBody token.handle token.lexeme) := by
  have top := mirrors.top path
  obtain ⟨unbound, handle, mirrors⟩ := mirrors.declareGlobal top declared
  -- Its scope is noted in its entry once it is open, which leaves all names.
  have opens := (mirrors.push top token.lexeme).modifyFunction replay.count
    (fun entry => (rfl : ({ entry with
      body := some (later.push token.lexeme).here } : FunctionEntry).name = entry.name))
  refine ⟨_, ?_, handle ▸ opens⟩
  rw [symbolOf?, if_pos category, handle]
  exact step_declareFunction top unbound

end

end Mirrors

end Replay

variable {window : Window}

theorem Window.Holds.typed (holds : window.Holds state) (typed : state.behindType = true)
    : window = .typed := by
  cases window with
  | typed => rfl
  | free =>
    rw [holds.1] at typed
    cases typed
  | opened =>
    obtain ⟨opener, found, isVariable⟩ := holds
    simp only [LexerState.behindType, found, Option.any_some, isVariable] at typed
    cases typed

variable {replay : Replay}

theorem InBlock.follows {function : Option Handle} {depth deeper : Nat}
    (block : InBlock scope function depth state) (holds : window.Holds state)
    (mirrors : replay.Mirrors state.table) (step : Step state token after)
    (inner : (Role.ofCategory token.category).inner depth = some deeper) :
    replay.Follows (token, window.act (Role.ofCategory token.category)) after.table := by
  -- Nothing but a name is declared.
  have passed (notName : token.category ≠ identifier) (same : after.table = state.table) :
      replay.Follows (token, window.act (Role.ofCategory token.category)) after.table := by
    have other : Role.ofCategory token.category ≠ .name := fun is => notName (Role.eq_identifier is)
    rw [same, Window.act, if_neg fun both => other both.2]
    exact mirrors.follows_plain notName
  have isName (category : token.category = identifier) : Role.ofCategory token.category = .name := by
    rw [category]
    rfl
  cases step with
  | plain notName => exact passed notName rfl
  | literal category =>
    refine passed ?_ rfl
    rcases category with is | is | is <;> rw [is] <;> decide
  | closeParen category | openBrace category | closeBrace category =>
    exact passed (by rw [category]; decide) rfl
  | resolved category free found =>
    have untyped : window ≠ .typed := by
      rintro rfl
      exact (free holds.1).1 holds.2
    rw [isName category, Window.act, if_neg fun both => untyped both.1]
    exact mirrors.follows_name block.sound block.path category found
  | newVariable category typed opened declared =>
    rw [isName category, holds.typed typed]
    exact mirrors.follows_declare block.path category rfl declared
  | newFunction category typed opened declared => exact absurd opened block.opening
  | newParameter category typed notVariable notFunction header reading declared =>
    rw [block.unlisted] at header
    cases header
  | start category | stop category =>
    rw [category] at inner
    cases inner
  | endFunction category inFunction last popped =>
    rw [category, block.outermost inFunction last] at inner
    cases inner

/-- The lexer at a place of a program, in step with a replay of the leaves before it. -/
structure Linked (mode : Mode) (replay : Replay) (state : LexerState) : Prop where
  holds : mode.Holds state
  mirrors : replay.Mirrors state.table

/-- Every token takes the replay on with the lexer, and a name has the symbol of the replay. -/
theorem Linked.follows {mode next : Mode} (linked : Linked mode replay state)
    (step : Step state token after) (leads : mode.Leads token.category next) :
    replay.Follows (token, mode.act (Role.ofCategory token.category)) after.table := by
  obtain ⟨holds, mirrors⟩ := linked
  have quiet (quiet : isQuiet token.category = true) : after.table = state.table := by
    rw [step.quiet quiet]
    rfl
  have type (isType : isTypeWord token.category = true) :
      after.table = state.table ∧ token.category ≠ identifier := by
    refine ⟨quiet (by simp [isQuiet, isType]), fun same => ?_⟩
    rw [same] at isType
    cases isType
  cases mode with
  | outside =>
    obtain ⟨outside, unopened⟩ := holds
    rcases leads with ⟨category, _⟩ | ⟨category, _⟩
    · rw [quiet (by rw [category]; rfl), category]
      exact mirrors.follows_plain (by rw [category]; decide)
    · rw [(outside.openMain unopened step category).2.1, category]
      exact mirrors.follows_openMain outside.top (by rw [category]; decide)
  | opened =>
    obtain ⟨same, notName⟩ := type leads.1
    rw [same]
    exact mirrors.follows_plain notName
  | typed =>
    obtain ⟨outside, typed, opened⟩ := holds
    obtain ⟨category, _⟩ := leads
    obtain ⟨table, declared, rfl⟩ := step.newFunction_inv category typed opened
    rw [category]
    exact mirrors.follows_declareFunction outside.top category declared
  | header =>
    obtain ⟨before, signature, header⟩ := holds
    rcases leads with ⟨isType, _⟩ | ⟨mark, _⟩ | ⟨category, _⟩
    · obtain ⟨same, notName⟩ := type isType
      rw [same]
      exact mirrors.follows_plain notName
    · rw [quiet (by rcases mark with is | is <;> rw [is] <;> rfl)]
      exact mirrors.follows_plain (by rcases mark with is | is <;> rw [is] <;> decide)
    · rw [(header.close step category).2]
      exact mirrors.follows_plain (by rw [category]; decide)
  | headerTyped =>
    obtain ⟨⟨before, signature, header⟩, typed⟩ := holds
    obtain ⟨category, _⟩ := leads
    obtain ⟨notFunction, notVariable⟩ := header.opening
    obtain ⟨table, declared, rfl⟩ := step.newParameter_inv category typed notVariable notFunction
      header.listed header.reading
    -- The function that gets the parameter keeps its name.
    obtain ⟨middle, made, rfl⟩ := SymbolTable.addParameter_eq declared
    obtain ⟨further, stepped, mirrors⟩ := mirrors.follows_declare header.path category rfl made
    rw [category]
    exact ⟨further, stepped, mirrors.modifyFunction before.symbols.size fun _ => rfl⟩
  | closed =>
    obtain ⟨before, signature, header⟩ := holds
    obtain ⟨category, _⟩ := leads
    rw [LexerState.table, (header.openBody step category).2]
    exact mirrors.follows_plain (by rw [category]; decide)
  | body depth window =>
    obtain ⟨⟨scope, function, block⟩, holds⟩ := holds
    rcases leads with ⟨rfl, category, _⟩ | ⟨deeper, behind, inner, _, _⟩
    · rw [(block.endFunction step category).2.1, category]
      exact mirrors.follows_close block.path (by rw [category]; decide)
    · have inside : ¬ (depth = 0 ∧ Role.ofCategory token.category = .word closeBrace) := by
        rintro ⟨rfl, is⟩
        rw [is] at inner
        cases inner
      rw [Mode.act, if_neg inside]
      exact block.follows holds mirrors step inner
  | main depth window =>
    obtain ⟨⟨scope, block⟩, holds⟩ := holds
    rcases leads with ⟨rfl, category, _⟩ | ⟨deeper, behind, inner, _, _⟩
    · rw [(block.endMain step category).2.1, category]
      exact mirrors.follows_close block.path (by rw [category]; decide)
    · have inside : ¬ (depth = 0 ∧ Role.ofCategory token.category = .word endWord) := by
        rintro ⟨rfl, is⟩
        rw [is] at inner
        cases inner
      rw [Mode.act, if_neg inside]
      exact block.follows holds mirrors step inner
  | finished => exact leads.elim

/-- A token whose handle refers to a symbol of its name. -/
def NamedIn (table : SymbolTable) (token : Token) : Prop :=
  ∃ entry, table.lookup? token.handle = some entry ∧ entry.name = token.lexeme

namespace NamedIn

variable {table later : SymbolTable}

theorem append (named : NamedIn table token) (grown : table.entries <+: later.entries) :
    NamedIn later token := by
  obtain ⟨entry, found, same⟩ := named
  exact ⟨entry, SymbolTable.lookup?_of_prefix grown found, same⟩

theorem modifyFunction (named : NamedIn table token) (function : Handle)
    {change : FunctionEntry → FunctionEntry} (keeps : ∀ entry, (change entry).name = entry.name) :
    NamedIn (table.modifyFunction function change) token :=
  SymbolTable.exists_lookup?_modifyFunction
    (fun entry same => (entry.name_changed keeps).trans same) named

end NamedIn

variable {entry : Entry}

theorem namedIn_of_declare (declared : table.declare scope entry = .ok (token.handle, later))
    (same : entry.name = token.lexeme) : NamedIn later token := by
  obtain ⟨handle, rfl⟩ := SymbolTable.declare_ok declared
  exact ⟨entry, by rw [handle, SymbolTable.lookup?_append rfl, if_pos rfl], same⟩

theorem NamedIn.declare {handle : Handle} (named : NamedIn table token)
    (declared : table.declare scope entry = .ok (handle, later)) : NamedIn later token := by
  obtain ⟨_, rfl⟩ := SymbolTable.declare_ok declared
  exact named.append (prefix_append _ _)

theorem entries_of_pop (popped : table.pop = .ok (scope, later)) :
    later.entries = table.entries := by
  simp only [SymbolTable.pop, ScopeTree.pop] at popped
  split at popped
  · cases popped
    rfl
  · cases popped

variable {other : Token}

theorem NamedIn.step (named : NamedIn state.table other) (step : Step state token after)
    : NamedIn after.table other := by
  cases step with
  | newVariable _ _ _ declared => exact NamedIn.declare named declared
  | @newFunction table _ _ _ declared =>
    have kept : NamedIn table other := NamedIn.declare named declared
    have opened : NamedIn (table.push token.lexeme) other := kept
    exact opened.modifyFunction token.handle fun _ => rfl
  | newParameter _ _ _ _ _ _ declared =>
    obtain ⟨_, made, rfl⟩ := SymbolTable.addParameter_eq declared
    exact (NamedIn.declare named made).modifyFunction _ fun _ => rfl
  | stop _ _ popped | endFunction _ _ _ popped =>
    exact named.append (entries_of_pop popped ▸ prefix_refl _)
  | _ => exact named

theorem Replay.Mirrors.namedIn (mirrors : replay.Mirrors state.table)
    (step : Step state token after) (category : token.category = identifier) :
    NamedIn after.table token := by
  cases step with
  | plain notName => exact absurd category notName
  | resolved _ _ found =>
    simp only [SymbolTable.resolve] at found
    split at found
    · rename_i handle scope resolved
      cases found
      obtain ⟨_, _, among⟩ := Option.bind_eq_some_iff.mp resolved
      obtain ⟨scope, _, looked⟩ := exists_of_findSome?_eq_some among
      obtain ⟨bound, isBound, same⟩ := Option.map_eq_some_iff.mp looked
      cases same
      exact mirrors.named scope _ _ isBound
    · cases found
  | newVariable _ _ _ declared => exact namedIn_of_declare declared rfl
  | @newFunction table _ _ _ declared =>
    have made : NamedIn table token := namedIn_of_declare declared rfl
    have opened : NamedIn (table.push token.lexeme) token := made
    exact opened.modifyFunction token.handle fun _ => rfl
  | newParameter _ _ _ _ _ _ declared =>
    obtain ⟨_, made, rfl⟩ := SymbolTable.addParameter_eq declared
    exact (namedIn_of_declare made rfl).modifyFunction _ fun _ => rfl
  | literal other => rcases other with is | is | is <;> cases category.symm.trans is
  | _ => cases category.symm.trans ‹token.category = _›

theorem NamedIn.traces {entries : List (Token × Bool)} (named : NamedIn state.table other)
    (traces : Traces state entries after) : NamedIn after.table other := by
  induction traces with
  | nil => exact named
  | cons step _ ih => exact ih (named.step step)

/-- What a replay of some leaves has in common with the lexer that read them. -/
structure Replayed (replay : Replay) (leaves : List (Token × Act)) (entries : List (Token × Bool))
    (there : Mode) (after : LexerState) : Prop where
  ran : ∃ further, replay.run leaves = some (leaves.map fun leaf => symbolOf? leaf.1, further) ∧
    Linked there further after
  declared : entries = leaves.map fun leaf => (leaf.1, leaf.2.declares)
  named : ∀ leaf ∈ leaves, leaf.1.category = identifier → NamedIn after.table leaf.1

theorem Linked.replayed {leaves : List (Token × Act)} :
    ∀ {mode there : Mode} {replay : Replay} {state : LexerState}
      {entries : List (Token × Bool)}, Linked mode replay state → Traces state entries after →
    entries.map Prod.fst = leaves.map Prod.fst →
    (leaves.map fun leaf => (Role.ofCategory leaf.1.category, leaf.2)).foldlM placeAfter mode =
      some there →
    Replayed replay leaves entries there after := by
  -- The lexer and the replay stay linked along the leaves, at the places that the tree gives.
  induction leaves with
  | nil =>
    intro mode there replay state entries linked traces same leads
    cases leads
    obtain rfl := map_eq_nil_iff.mp same
    cases traces
    exact ⟨⟨replay, rfl, linked⟩, rfl, by simp⟩
  | cons leaf rest ih =>
    intro mode there replay state entries linked traces same leads
    obtain ⟨token, act⟩ := leaf
    cases traces with
    | nil => cases same
    | @cons _ middle _ first _ step others =>
      rw [map_cons, map_cons, List.cons.injEq] at same
      obtain ⟨rfl, tokens⟩ := same
      rw [map_cons, foldlM_cons] at leads
      obtain ⟨between, one, behind⟩ := Option.bind_eq_some_iff.mp leads
      obtain ⟨same, after⟩ : act = mode.act (Role.ofCategory first.category) ∧
        mode.after (Role.ofCategory first.category) = some between := of_placeAfter one
      subst same
      have moves := Mode.leads_of_after after
      obtain ⟨further, stepped, mirrors⟩ := linked.follows step moves
      obtain ⟨⟨final, ran, finish⟩, declared, named⟩ := ih ⟨linked.holds.step step moves, mirrors⟩ others tokens behind
      -- The number of symbols tells whether the token was a declaration.
      have grown : decide (state.table.size < middle.table.size) =
          (mode.act (Role.ofCategory first.category)).declares := by
        rw [← linked.mirrors.count, ← mirrors.count, Replay.count_of_step stepped]
        cases (mode.act (Role.ofCategory first.category)).declares <;> simp
      refine ⟨⟨final, ?_, finish⟩, ?_, ?_⟩
      · simp only [Replay.run, stepped, ran, Option.bind_eq_bind, Option.bind_some]
        rfl
      · rw [map_cons, declared, grown]
      · intro other member isName
        rcases mem_cons.mp member with rfl | later
        · exact (linked.mirrors.namedIn step isName).traces others
        · exact named other later isName

/-- A lexer that has read nothing is in step with a replay of nothing. -/
theorem linked_start : Linked .outside {} { environment := .empty } where
  holds := holds_start
  mirrors :=
    { count := rfl
      present := by decide
      globals := fun name => rfl
      locals := rfl
      named := fun id name handle found => by
        obtain ⟨entry, looked, _⟩ := SymbolTable.sound_empty.bound id name handle found
        simp [SymbolTable.empty, SymbolTable.lookup?] at looked
        split at looked <;> simp at looked }

end Language

end ThreeAddress

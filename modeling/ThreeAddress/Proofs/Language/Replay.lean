import ThreeAddress.Proofs.Language.Places
import ThreeAddress.Proofs.Symbols.Table

/-!
Plain scoping over the leaves of a program.

Leaves are replayed by what they do in the tree, with one list of names for each open scope.
A symbol table mirrors a replay if its scopes bind the same names to the same symbols.
-/

namespace ThreeAddress

namespace Language

/-- Names with what they stand for, in the order of their declarations. -/
abbrev Bindings := List (Text × Handle)

/-- Plain scoping: the global names, those of the open scopes from the inside out, and the number of symbols. -/
structure Replay where
  globals : Bindings := []
  locals : List Bindings := []
  count : Nat := 0
deriving Repr

namespace Replay

/-- What a name stands for: the innermost scope that binds it counts. -/
def find? (replay : Replay) (name : Text) : Option Handle :=
  (replay.locals ++ [replay.globals]).findSome? fun bindings => bindings.lookup name

/-- The symbol that a leaf stands for, where it is a name, and the scopes behind the leaf. -/
def step (replay : Replay) (leaf : Token × Act) : Option (Option Handle × Replay) :=
  let (token, act) := leaf
  -- Symbols are numbered in the order of their declarations.
  let handle : Handle := replay.count
  match act, replay.locals with
  | .plain, _ =>
    if token.category = identifier then
      (replay.find? token.lexeme).map fun found => (some found, replay)
    else some (none, replay)
  | .declare, inner :: outer =>
    if (inner.lookup token.lexeme).isSome then none
    else some (some handle,
      { replay with
        locals := (inner ++ [(token.lexeme, handle)]) :: outer
        count := replay.count + 1 })
  | .declareFunction, locals =>
    if (replay.globals.lookup token.lexeme).isSome then none
    else some (some handle,
      { globals := replay.globals ++ [(token.lexeme, handle)]
        locals := [] :: locals, count := replay.count + 1 })
  | .openMain, locals => some (none, { replay with locals := [] :: locals })
  | .close, _ :: outer => some (none, { replay with locals := outer })
  | .declare, [] | .close, [] => none

/-- The symbols that leaves stand for, each where it is a name, and the scopes behind the leaves. -/
def run : Replay → List (Token × Act) → Option (List (Option Handle) × Replay)
  | replay, [] => some ([], replay)
  | replay, leaf :: rest => do
    let (symbol, middle) ← replay.step leaf
    let (symbols, final) ← middle.run rest
    return (symbol :: symbols, final)

variable {replay : Replay} {token : Token}

/-- A new name of the only open scope stands for the next symbol. -/
theorem step_declare {inner : Bindings} (isInner : replay.locals = [inner])
    (unbound : inner.lookup token.lexeme = none) :
    replay.step (token, .declare) = some (some (replay.count : Handle),
      { replay with
        locals := [inner ++ [(token.lexeme, (replay.count : Handle))]]
        count := replay.count + 1 }) := by
  simp [step, isInner, unbound]

/-- A new global name stands for the next symbol, and a scope is opened behind it. -/
theorem step_declareFunction (top : replay.locals = [])
    (unbound : replay.globals.lookup token.lexeme = none) :
    replay.step (token, .declareFunction) = some (some (replay.count : Handle),
      { globals := replay.globals ++ [(token.lexeme, (replay.count : Handle))]
        locals := [[]]
        count := replay.count + 1 }) := by
  simp [step, top, unbound]

/-- A leaf of the replay makes a new symbol exactly if it declares a name. -/
theorem count_of_step {further : Replay} {act : Act} {symbol : Option Handle}
    (stepped : replay.step (token, act) = some (symbol, further)) :
    further.count = replay.count + if act.declares then 1 else 0 := by
  cases act with
  | plain =>
    by_cases isName : token.category = identifier
    · simp only [step, if_pos isName] at stepped
      obtain ⟨_, _, same⟩ := Option.map_eq_some_iff.mp stepped
      cases same
      rfl
    · simp only [step, if_neg isName] at stepped
      cases stepped
      rfl
  | declare =>
    cases known : replay.locals with
    | nil => simp [step, known] at stepped
    | cons inner outer =>
      simp only [step, known, Option.ite_none_left_eq_some] at stepped
      cases stepped.2
      rfl
  | declareFunction =>
    simp only [step, Option.ite_none_left_eq_some] at stepped
    cases stepped.2
    rfl
  | openMain =>
    cases stepped
    rfl
  | close =>
    cases known : replay.locals with
    | nil => simp [step, known] at stepped
    | cons inner outer =>
      simp only [step, known] at stepped
      cases stepped
      rfl

/-- The scopes that are open in a table: the global one, or one more with the given names. -/
def Opens (scopes : ScopeTree) : List Bindings → Prop
  | [] => scopes.path = [0]
  | [inner] => ∃ scope, scope ≠ 0 ∧ scope < scopes.scopes.length ∧ scopes.path = [scope, 0] ∧
      ∀ name, scopes.lookup? scope name = inner.lookup name
  | _ => False

/-- A table that holds the symbols of a replay under the same names. -/
structure Mirrors (replay : Replay) (table : SymbolTable) : Prop where
  count : replay.count = table.size
  present : 0 < table.scopeCount
  globals : ∀ name, table.scopes.lookup? 0 name = replay.globals.lookup name
  locals : Opens table.scopes replay.locals
  named : ∀ id name handle, table.scopes.lookup? id name = some handle →
    ∃ entry, table.lookup? handle = some entry ∧ entry.name = name

namespace Mirrors

variable {replay : Replay} {table after : SymbolTable} {entry : Entry} {handle : Handle}
  {scope : Nat}

section

variable (mirrors : replay.Mirrors table)
include mirrors

theorem named_declare (inside : scope < table.scopeCount)
    (declared : table.declare scope entry = .ok (handle, after)) (id : Nat) (name : Text)
    (found : Handle) (looked : after.scopes.lookup? id name = some found) :
    ∃ entry, after.lookup? found = some entry ∧ entry.name = name := by
  obtain ⟨rfl, rfl⟩ := SymbolTable.declare_ok declared
  rw [ScopeTree.lookup?_define_eq inside] at looked
  have earlier : table.scopes.lookup? id name = some found →
      ∃ known, SymbolTable.lookup? { table with
        entries := table.entries ++ [entry]
        scopes := table.scopes.define scope entry.name table.size } found = some known ∧
          known.name = name := by
    intro bound
    obtain ⟨known, held, same⟩ := mirrors.named id name found bound
    exact ⟨known, SymbolTable.lookup?_of_prefix (List.prefix_append _ _) held, same⟩
  -- Only the scope of the declaration binds something new, and only behind its older names.
  split at looked
  · rcases Option.or_eq_some_iff.mp looked with bound | ⟨_, new⟩
    · exact earlier bound
    · simp only [List.lookup_cons, List.lookup_nil] at new
      split at new
      · rename_i same
        cases new
        exact ⟨entry, by rw [SymbolTable.lookup?_append rfl, if_pos rfl], (beq_iff_eq.mp same).symm⟩
      · cases new
  · exact earlier looked

variable {inner : Bindings}

theorem declare (isInner : replay.locals = [inner])
    (declared : table.declare table.here entry = .ok (handle, after)) :
    inner.lookup entry.name = none ∧ handle = (replay.count : Nat) ∧
      Mirrors { replay with
        locals := [inner ++ [(entry.name, (replay.count : Handle))]]
        count := replay.count + 1 } after := by
  have opens := mirrors.locals
  rw [isInner] at opens
  obtain ⟨scope, notGlobal, inside, path, same⟩ := opens
  have here : table.here = scope := by simp [SymbolTable.here, path]
  rw [here] at declared
  have fresh := SymbolTable.declare_fresh declared
  have named := mirrors.named_declare inside declared
  obtain ⟨rfl, rfl⟩ := SymbolTable.declare_ok declared
  -- The table numbers its symbols as the replay does.
  have number : (replay.count : Handle) = (table.size : Nat) := by rw [mirrors.count]
  refine ⟨(same _).symm.trans fresh, number.symm, ?_⟩
  exact {
    count := by simp [SymbolTable.size, mirrors.count]
    present := by simpa [SymbolTable.scopeCount, ScopeTree.define] using mirrors.present
    globals := fun name => by
      rw [ScopeTree.lookup?_define_eq inside, if_neg (Ne.symm notGlobal), mirrors.globals]
    locals := by
      refine ⟨scope, notGlobal, by simpa [ScopeTree.define] using inside, path, fun name => ?_⟩
      rw [ScopeTree.lookup?_define_eq inside, if_pos rfl, same, List.lookup_append, number]
    named }

/-- A declaration in the global scope, where no other is open. -/
theorem declareGlobal (top : replay.locals = [])
    (declared : table.declare 0 entry = .ok (handle, after)) :
    replay.globals.lookup entry.name = none ∧ handle = (replay.count : Nat) ∧
      Mirrors { replay with
        globals := replay.globals ++ [(entry.name, (replay.count : Handle))]
        count := replay.count + 1 } after := by
  have fresh := SymbolTable.declare_fresh declared
  have named := mirrors.named_declare mirrors.present declared
  have path := mirrors.locals
  rw [top] at path
  obtain ⟨rfl, rfl⟩ := SymbolTable.declare_ok declared
  have number : (replay.count : Handle) = (table.size : Nat) := by rw [mirrors.count]
  refine ⟨(mirrors.globals _).symm.trans fresh, number.symm, ?_⟩
  exact {
    count := by simp [SymbolTable.size, mirrors.count]
    present := by simpa [SymbolTable.scopeCount, ScopeTree.define] using mirrors.present
    globals := fun name => by
      rw [ScopeTree.lookup?_define_eq mirrors.present, if_pos rfl, mirrors.globals,
        List.lookup_append, number]
    locals := by
      rw [top]
      exact path
    named }

theorem push (top : replay.locals = []) (name : Text) :
    Mirrors { replay with locals := [[]] } (table.push name) := by
  have path := mirrors.locals
  rw [top] at path
  have apart : (0 : Nat) ≠ table.scopeCount := Nat.ne_of_lt mirrors.present
  exact {
    count := mirrors.count
    present := by simp [SymbolTable.scopeCount, SymbolTable.push, ScopeTree.push]
    globals := fun text => by
      rw [SymbolTable.push, ScopeTree.lookup?_push, if_neg apart, mirrors.globals]
    locals := by
      refine ⟨table.scopeCount, Ne.symm apart, ?_, ?_, fun text => ?_⟩
      · simp [SymbolTable.push, ScopeTree.push]
      · exact congrArg (table.scopeCount :: ·) path
      · rw [SymbolTable.push, ScopeTree.lookup?_push, if_pos rfl]
        rfl
    named := fun id text found looked => by
      rw [SymbolTable.push, ScopeTree.lookup?_push] at looked
      split at looked
      · cases looked
      · exact mirrors.named id text found looked }

theorem modifyFunction (index : Nat)
    {change : FunctionEntry → FunctionEntry} (keeps : ∀ entry, (change entry).name = entry.name) :
    replay.Mirrors (table.modifyFunction (index : Nat) change) where
  count := by simp [SymbolTable.size, SymbolTable.modifyFunction, mirrors.count]
  present := mirrors.present
  globals := mirrors.globals
  locals := mirrors.locals
  named id name found looked := SymbolTable.exists_lookup?_modifyFunction
    (fun entry same => (entry.name_changed keeps).trans same) (mirrors.named id name found looked)

theorem pop :
    Mirrors { replay with locals := [] } { table with scopes.path := [0] } :=
  { mirrors with locals := rfl }

theorem resolve (sound : table.Sound) (isInner : replay.locals = [inner]) {name : Text}
    (found : table.resolve name = .ok handle) : replay.find? name = some handle := by
  have opens := mirrors.locals
  rw [isInner] at opens
  obtain ⟨scope, notGlobal, inside, path, same⟩ := opens
  simp only [find?, isInner, List.singleton_append, List.findSome?_cons, List.findSome?_nil, ← same,
    ← mirrors.globals]
  -- The inner scope hides the global one.
  rcases sound.resolve_cases notGlobal path found with bound | ⟨unbound, bound⟩
  · rw [bound]
  · rw [unbound, bound]

theorem top (path : table.scopes.path = [0]) :
    replay.locals = [] := by
  have opens := mirrors.locals
  match known : replay.locals with
  | [] => rfl
  | [inner] =>
    rw [known] at opens
    obtain ⟨_, _, _, other, _⟩ := opens
    rw [path] at other
    cases other
  | _ :: _ :: _ =>
    rw [known] at opens
    exact opens.elim

theorem nested (path : table.scopes.path = [scope, 0]) :
    ∃ inner, replay.locals = [inner] := by
  have opens := mirrors.locals
  match known : replay.locals with
  | [] =>
    rw [known] at opens
    have other : table.scopes.path = [0] := opens
    rw [path] at other
    cases other
  | [inner] => exact ⟨inner, rfl⟩
  | _ :: _ :: _ =>
    rw [known] at opens
    exact opens.elim

end

end Mirrors

end Replay

end Language

end ThreeAddress

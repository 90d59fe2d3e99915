import ThreeAddress.Proofs.Symbols.Ledger
import Mathlib.Data.List.Nodup

/-!
The symbol table does what a stack of maps does.

Scopes that are closed stay in the table, but only those on the path can be reached from the current one.
-/

namespace ThreeAddress

open List

namespace ScopeTree

/-- The open scopes lead to the global one, each around those that were opened later. -/
structure Chained (tree : ScopeTree) : Prop where
  outermost : tree.path.getLast? = some 0
  ordered : tree.path.Pairwise (· > ·)
  enclosing : ∀ front id rest, tree.path = front ++ id :: rest →
    ∃ scope, tree.scope? id = some scope ∧ scope.enclosing = rest

variable {tree : ScopeTree} {id : Nat}

theorem Chained.lt_length (chained : tree.Chained) (open_ : id ∈ tree.path) :
    id < tree.scopes.length := by
  obtain ⟨front, rest, same⟩ := append_of_mem open_
  obtain ⟨scope, found, -⟩ := chained.enclosing front id rest same
  exact (List.getElem?_eq_some_iff.mp found).1

theorem scope?_push (old : id < tree.scopes.length) (name : Text) :
    (tree.push name).scope? id = tree.scope? id :=
  getElem?_append_left old

theorem Chained.push (chained : tree.Chained) (name : Text) : (tree.push name).Chained where
  outermost := by
    have last := chained.outermost
    cases path : tree.path with
    | nil => simp [path] at last
    | cons first rest => simpa [ScopeTree.push, path] using last
  ordered := pairwise_cons.mpr ⟨fun id open_ => chained.lt_length open_, chained.ordered⟩
  enclosing front id rest same := by
    cases front with
    | nil =>
      cases same
      exact ⟨_, getElem?_concat_length, rfl⟩
    | cons first front =>
      simp only [ScopeTree.push, cons_append, List.cons.injEq] at same
      have old : id < tree.scopes.length := chained.lt_length (by simp [same.2])
      rw [scope?_push old]
      exact chained.enclosing front id rest same.2

/-- What is left when a scope is closed leads to the global scope as before. -/
theorem Chained.pop (chained : tree.Chained) {outer : Nat} {rest : List Nat}
    (path : tree.path = id :: outer :: rest) :
    ScopeTree.Chained { tree with path := outer :: rest } where
  outermost := by simpa [path] using chained.outermost
  ordered := by
    have ordered := chained.ordered
    rw [path] at ordered
    exact (pairwise_cons.mp ordered).2
  enclosing front inner behind same := by
    refine chained.enclosing (id :: front) inner behind ?_
    rw [path, cons_append, ← same]

theorem Chained.define (chained : tree.Chained) (id : Nat) (name : Text) (handle : Handle) :
    (tree.define id name handle).Chained where
  outermost := chained.outermost
  ordered := chained.ordered
  enclosing front inner rest same := by
    obtain ⟨scope, found, around⟩ := chained.enclosing front inner rest same
    have known : tree.scopes[inner]? = some scope := found
    refine ⟨if id = inner then scope.define name handle else scope, ?_, ?_⟩
    · simp only [scope?, ScopeTree.define, getElem?_modify, known]
      split <;> rfl
    · split <;> exact around

end ScopeTree

/-- What a ledger knows of an entry. -/
def Entry.sketch : Entry → LedgerSymbol
  | .var entry => { name := entry.name, type := entry.type, temporary := entry.temporary }
  | .func entry => { name := entry.name, type := entry.returns, isFunction := true }

@[simp] theorem Entry.name_sketch (entry : Entry) : entry.sketch.name = entry.name := by
  cases entry <;> rfl

namespace SymbolTable

/-- What a ledger knows of the entries. -/
def symbols (table : SymbolTable) : List LedgerSymbol := table.entries.map Entry.sketch

/-- What a ledger knows of a scope. -/
def frame (table : SymbolTable) (id : Nat) : LedgerFrame where
  name := table.scopes.nameOf id
  names := table.scopes.lookup? id

/-- A table that holds what a ledger holds. -/
structure Represents (table : SymbolTable) (ledger : Ledger) : Prop where
  chained : table.scopes.Chained
  stack : table.scopes.path.map table.frame = ledger.stack
  symbols : table.symbols = ledger.symbols
  temporaries : table.temporaries = ledger.temporaries
  slot : table.returnSlot = ledger.slot

/-- The same answer, and a table behind it that holds what the ledger holds. -/
def Agrees {ρ : Type} (served : ρ × SymbolTable) (model : ρ × Ledger) : Prop :=
  served.1 = model.1 ∧ served.2.Represents model.2

end SymbolTable

section Rel

variable {α β : Type} {related : α → β → Prop} {one : α} {other : β}

theorem exists_right_of_rel {model : Option β} (rel : Option.Rel related (some one) model) :
    ∃ other, model = some other ∧ related one other := by
  cases rel with
  | some holds => exact ⟨_, rfl, holds⟩

theorem exists_left_of_rel {served : Option α} (rel : Option.Rel related served (some other)) :
    ∃ one, served = some one ∧ related one other := by
  cases rel with
  | some holds => exact ⟨_, rfl, holds⟩

end Rel

/-- Changing what stands at one place of a list without repetitions changes it there only. -/
theorem map_eq_modify {path : List Nat} (distinct : path.Nodup) {depth id : Nat}
    (found : path[depth]? = some id) {before after : Nat → LedgerFrame}
    {change : LedgerFrame → LedgerFrame} (here : after id = change (before id))
    (others : ∀ other, other ≠ id → after other = before other) :
    path.map after = (path.map before).modify depth change := by
  refine ext_getElem? fun index => ?_
  rw [getElem?_map, getElem?_modify, getElem?_map]
  by_cases same : depth = index
  · subst same
    simp [found, here]
  · cases at_ : path[index]? with
    | none => rfl
    | some other =>
      have apart : other ≠ id := by
        rintro rfl
        have inside := (List.getElem?_eq_some_iff.mp found).1
        exact same ((getElem?_inj inside distinct).mp (found.trans at_.symm))
      simp [same, others other apart]

namespace SymbolTable.Represents

variable {table : SymbolTable} {ledger : Ledger} (represents : table.Represents ledger)
include represents

theorem length_eq : ledger.symbols.length = table.size := by
  rw [← represents.symbols, SymbolTable.symbols, length_map, size]

variable {depth id : Nat}

theorem frame_at (found : table.scopes.path[depth]? = some id) :
    ledger.stack[depth]? = some (table.frame id) := by
  rw [← represents.stack, getElem?_map, found]
  rfl

theorem here_eq : table.scopes.path[0]? = some table.here := by
  have last := represents.chained.outermost
  rw [here]
  cases path : table.scopes.path with
  | nil => simp [path] at last
  | cons id rest => rfl

theorem globals_eq : table.scopes.path[ledger.stack.length - 1]? = some 0 := by
  rw [← represents.stack, length_map, ← getLast?_eq_getElem?]
  exact represents.chained.outermost

theorem append (entry : Entry) :
    (table.append entry).1 = (ledger.append entry.sketch).1 ∧
      (table.append entry).2.Represents (ledger.append entry.sketch).2 := by
  refine ⟨by simp [SymbolTable.append, Ledger.append, represents.length_eq], ?_⟩
  exact { represents with
    symbols := by
      simp [SymbolTable.append, Ledger.append, SymbolTable.symbols, ← represents.symbols] }

theorem declare (found : table.scopes.path[depth]? = some id) (entry : Entry) :
    Option.Rel Agrees (some (table.settle (table.declare id entry)))
      (ledger.declare depth entry.sketch) := by
  simp only [Ledger.declare, represents.frame_at found, SymbolTable.declare, frame,
    Entry.name_sketch, Option.bind_eq_bind, Option.bind_some]
  split
  · exact .some ⟨rfl, represents⟩
  · next absent =>
    obtain ⟨handle, appended⟩ := represents.append entry
    refine .some ⟨by rw [settle, handle], ?_⟩
    simp only [settle]
    have inside := represents.chained.lt_length (mem_of_getElem? found)
    have unbound := Option.not_isSome_iff_eq_none.mp absent
    exact { appended with
      chained := represents.chained.define id entry.name _
      stack := by
        have distinct : table.scopes.path.Nodup :=
          represents.chained.ordered.imp fun greater => Nat.ne_of_gt greater
        rw [Ledger.declared, ← represents.stack, Entry.name_sketch]
        refine map_eq_modify distinct found ?_ ?_
        · -- The name is new in this scope, so it does not matter where it is put.
          simp only [frame, LedgerFrame.define, LedgerFrame.mk.injEq]
          refine ⟨ScopeTree.nameOf_define .., funext fun text => ?_⟩
          rw [ScopeTree.lookup?_define_eq inside, if_pos rfl]
          by_cases isName : text = entry.name
          · simp [isName, unbound, ← handle]
          · have other : (text == entry.name) = false := by simpa using isName
            simp [isName, other, lookup_cons]
        · intro other apart
          simp only [frame, LedgerFrame.mk.injEq]
          refine ⟨ScopeTree.nameOf_define .., funext fun text => ?_⟩
          rw [ScopeTree.lookup?_define_eq inside, if_neg apart] }

theorem modifyFunction (handle : Handle) (change : FunctionEntry → FunctionEntry)
    (keeps : ∀ entry, (change entry).name = entry.name ∧ (change entry).returns = entry.returns) :
    (table.modifyFunction handle change).Represents ledger :=
  { represents with
    symbols := by
      rw [← represents.symbols]
      refine ext_getElem? fun index => ?_
      simp only [SymbolTable.symbols, SymbolTable.modifyFunction, getElem?_map, getElem?_modify]
      cases table.entries[index]? with
      | none => rfl
      | some entry =>
        split
        · cases entry with
          | var entry => rfl
          | func entry => simp [Entry.sketch, keeps]
        · rfl }

theorem find?_eq (name : Text) :
    ledger.find? name = (table.scopes.resolve? table.here name).map Prod.fst := by
  have here := represents.here_eq
  cases path : table.scopes.path with
  | nil => simp [path] at here
  | cons id rest =>
    have isHere : table.here = id := by simp [SymbolTable.here, path]
    obtain ⟨scope, found, around⟩ := represents.chained.enclosing [] id rest path
    rw [Ledger.find?, ← represents.stack, path, isHere, ScopeTree.resolve?, found]
    simp only [Option.bind_eq_bind, Option.bind_some, around]
    rw [findSome?_map, map_findSome?]
    refine congrArg (fun test => findSome? test (id :: rest)) (funext fun other => ?_)
    cases seen : table.scopes.lookup? other name <;> simp [frame, seen]

theorem symbol? (handle : Handle) :
    ledger.symbol? handle = (table.lookup? handle).map Entry.sketch := by
  cases handle with
  | negSucc index => rfl
  | ofNat index =>
    rw [Ledger.symbol?, ← represents.symbols, SymbolTable.symbols, getElem?_map]
    rfl

theorem isFunction_iff (handle : Handle) :
    (ledger.symbol? handle).any LedgerSymbol.isFunction ↔ (table.function? handle).isSome := by
  rw [represents.symbol?, function?]
  cases table.lookup? handle with
  | none => simp
  | some entry => cases entry <;> simp [Entry.sketch]

theorem push (name : Text) :
    (table.push name).Represents { ledger with stack := ⟨name, fun _ => none⟩ :: ledger.stack } :=
  { represents with
    chained := represents.chained.push name
    stack := by
      rw [← represents.stack]
      refine cons_eq_cons.mpr ⟨?_, map_congr_left fun id open_ => ?_⟩
      · simp only [frame, LedgerFrame.mk.injEq]
        refine ⟨by simp [SymbolTable.push, ScopeTree.push, ScopeTree.nameOf, ScopeTree.scope?],
          funext fun text => ?_⟩
        rw [SymbolTable.push, ScopeTree.lookup?_push, if_pos rfl]
      · have old := represents.chained.lt_length open_
        simp only [frame, LedgerFrame.mk.injEq]
        refine ⟨by simp only [SymbolTable.push, ScopeTree.nameOf, ScopeTree.scope?_push old],
          funext fun text => ?_⟩
        rw [SymbolTable.push, ScopeTree.lookup?_push, if_neg (Nat.ne_of_lt old)] }

theorem pop {outer : Nat} {rest : List Nat} (path : table.scopes.path = id :: outer :: rest) :
    SymbolTable.Represents { table with scopes := { table.scopes with path := outer :: rest } }
      { ledger with stack := ledger.stack.tail } :=
  { represents with
    chained := represents.chained.pop path
    stack := by
      rw [← represents.stack, path]
      rfl }

theorem addParameter (function : Handle) (name : Text) (type : ValueType) :
    Option.Rel Agrees (some (table.settle (table.addParameter function name type)))
      (ledger.declare 0 { name, type }) := by
  rw [SymbolTable.addParameter, SymbolTable.declareParameter]
  have declared := represents.declare represents.here_eq
    (.var { name, type, scope := some table.here, parameter := true })
  cases made : table.declare table.here
      (.var { name, type, scope := some table.here, parameter := true }) with
  | error error =>
    rw [made] at declared
    exact declared
  | ok result =>
    rw [made] at declared
    obtain ⟨model, isModel, answer, after⟩ := exists_right_of_rel declared
    have same : ledger.declare 0 { name, type } = some model := isModel
    rw [same]
    exact .some ⟨answer, after.modifyFunction function _ fun entry => ⟨rfl, rfl⟩⟩

theorem serve (request : SymbolRequest) :
    Option.Rel Agrees (table.serve request) (ledger.serve request) := by
  cases request with
  | push name => exact .some ⟨rfl, represents.push name⟩
  | pop =>
    have stack := represents.stack
    have outermost := represents.chained.outermost
    rw [SymbolTable.serve, Ledger.serve, SymbolTable.pop, ScopeTree.pop]
    -- The global scope ends the path, so it is open alone or behind others.
    cases path : table.scopes.path with
    | nil => simp [path] at outermost
    | cons id others =>
      cases others with
      | nil =>
        rw [path] at stack
        rw [← stack]
        exact .some ⟨rfl, represents⟩
      | cons outer rest =>
        have popped := represents.pop path
        rw [← stack, path] at popped ⊢
        exact .some ⟨rfl, popped⟩
  | declareVariable name type =>
    exact represents.declare represents.here_eq (.var { name, type, scope := some table.here })
  | declareFunction name returns =>
    exact represents.declare represents.globals_eq (.func { name, returns })
  | addParameter function name type =>
    rw [SymbolTable.serve, Ledger.serve]
    by_cases isFunction : (table.function? function).isSome
    · rw [if_pos isFunction, if_pos ((represents.isFunction_iff function).mpr isFunction)]
      exact represents.addParameter function name type
    · rw [if_neg isFunction, if_neg (mt (represents.isFunction_iff function).mp isFunction)]
      exact .none
  | newTemporary type =>
    obtain ⟨handle, after⟩ := represents.append
      (.var { name := "t" ++ Text.ofNat table.temporaries, type, temporary := true })
    rw [Entry.sketch, represents.temporaries] at handle after
    refine .some ⟨congrArg (fun handle => Except.ok (some handle)) handle, ?_⟩
    simp only [SymbolTable.newTemporary, represents.temporaries]
    exact { after with temporaries := rfl }
  | returnSlot =>
    rw [SymbolTable.serve, Ledger.serve, getReturnSlot, ← represents.slot]
    cases slot : table.returnSlot with
    | some handle => exact .some ⟨rfl, represents⟩
    | none =>
      obtain ⟨handle, after⟩ := represents.append
        (.var { name := "0return", type := .untyped, temporary := true })
      refine .some ⟨congrArg (fun handle => Except.ok (some handle)) handle, ?_⟩
      exact { after with slot := congrArg some handle }
  | resolve name =>
    rw [SymbolTable.serve, Ledger.serve, represents.find?_eq, SymbolTable.resolve]
    cases table.scopes.resolve? table.here name with
    | some found => exact .some ⟨rfl, represents⟩
    | none =>
      have head := represents.frame_at represents.here_eq
      rw [head?_eq_getElem?, head]
      exact .some ⟨rfl, represents⟩

end SymbolTable.Represents

theorem SymbolTable.represents_empty : SymbolTable.empty.Represents Ledger.empty where
  chained := {
    outermost := rfl
    ordered := pairwise_singleton _ _
    enclosing := fun front id rest same => by
      obtain ⟨rfl, rfl, rfl⟩ : front = [] ∧ id = 0 ∧ rest = [] := by
        cases front <;> simp_all [empty, ScopeTree.push, ScopeTree.empty]
      exact ⟨_, rfl, rfl⟩ }
  stack := rfl
  symbols := rfl
  temporaries := rfl
  slot := rfl

theorem SymbolTable.Represents.serveAll {table : SymbolTable} {ledger : Ledger}
    (represents : table.Represents ledger) (requests : List SymbolRequest) :
    Option.Rel Agrees (serveAll SymbolTable.serve table requests)
      (serveAll Ledger.serve ledger requests) := by
  induction requests generalizing table ledger with
  | nil => exact .some ⟨rfl, represents⟩
  | cons request rest ih =>
    rw [ThreeAddress.serveAll, ThreeAddress.serveAll]
    have first := represents.serve request
    generalize table.serve request = served, ledger.serve request = model at first ⊢
    cases first with
    | none => exact .none
    | @some served model agrees =>
      have others := ih agrees.2
      simp only [Option.bind_eq_bind, Option.bind_some]
      generalize ThreeAddress.serveAll SymbolTable.serve served.2 rest = behind,
        ThreeAddress.serveAll Ledger.serve model.2 rest = modelled at others ⊢
      cases others with
      | none => exact .none
      | some final => exact .some ⟨congrArg₂ List.cons agrees.1 final.1, final.2⟩

def Entry.params : Entry → List Handle
  | .var _ => []
  | .func entry => entry.params

/-- The parameter that a function was given. -/
def SymbolRequest.parameter? (function : Handle) : SymbolRequest × SymbolAnswer → Option Handle
  | (.addParameter target _ _, .ok handle) => if target = function then handle else none
  | _ => none

namespace SymbolTable

variable {table after : SymbolTable} {request : SymbolRequest} {answer : SymbolAnswer}

def paramsOf (table : SymbolTable) (function : Handle) : List Handle :=
  (table.lookup? function).elim [] Entry.params

theorem lookup?_of_function? {handle : Handle} {entry : FunctionEntry}
    (known : table.function? handle = some entry) : table.lookup? handle = some (.func entry) := by
  rw [function?] at known
  split at known
  · next found => rwa [Option.some.inj known] at found
  · cases known

variable {entry : Entry} {answers : List SymbolAnswer} {requests : List SymbolRequest}

theorem paramsOf_append (without : entry.params = [])
    (same : after.entries = table.entries ++ [entry]) (function : Handle) :
    after.paramsOf function = table.paramsOf function := by
  rw [paramsOf, lookup?_append same]
  split
  · next new =>
    -- The handle of the new entry was not in use.
    have unused : table.lookup? function = none := by
      rw [new]
      exact getElem?_eq_none (Nat.le_refl _)
    simp [paramsOf, unused, without]
  · rfl

variable {scope : Nat}

theorem settle_cases (settled : table.settle (table.declare scope entry) = (answer, after)) :
    (after = table ∧ ∃ failure, answer = .error failure) ∨
      after.entries = table.entries ++ [entry] := by
  cases made : table.declare scope entry with
  | error error =>
    rw [made] at settled
    cases settled
    exact .inl ⟨rfl, _, rfl⟩
  | ok result =>
    obtain ⟨handle, declared⟩ := result
    rw [made] at settled
    cases settled
    obtain ⟨-, rfl⟩ := declare_ok made
    exact .inr rfl

theorem paramsOf_settle (without : entry.params = [])
    (settled : table.settle (table.declare scope entry) = (answer, after)) (function : Handle) :
    after.paramsOf function = table.paramsOf function := by
  obtain ⟨rfl, -⟩ | same := settle_cases settled
  · rfl
  · exact paramsOf_append without same function

theorem paramsOf_addParameter {target : Handle} {name : Text} {type : ValueType}
    (isFunction : (table.function? target).isSome)
    (settled : table.settle (table.addParameter target name type) = (answer, after))
    (function : Handle) :
    after.paramsOf function = table.paramsOf function ++
      (SymbolRequest.parameter? function (.addParameter target name type, answer)).toList := by
  cases made : table.addParameter target name type with
  | error error =>
    rw [made] at settled
    cases settled
    simp [SymbolRequest.parameter?]
  | ok result =>
    obtain ⟨handle, later⟩ := result
    rw [made] at settled
    cases settled
    obtain ⟨declared, added, rfl⟩ := addParameter_eq made
    cases target with
    | negSucc index => simp [function?, lookup?] at isFunction
    | ofNat index =>
      obtain ⟨-, appended⟩ := declare_ok added
      have grown : declared.paramsOf function = table.paramsOf function :=
        paramsOf_append rfl (congrArg entries appended) function
      rw [← grown]
      by_cases here : function = (index : Nat)
      · subst here
        obtain ⟨entry, known⟩ := Option.isSome_iff_exists.mp isFunction
        have found : declared.lookup? (index : Nat) = some (.func entry) := by
          rw [appended]
          exact lookup?_of_prefix (prefix_append _ _) (lookup?_of_function? known)
        simp [paramsOf, lookup?_modifyFunction, found, Entry.changed, Entry.params,
          SymbolRequest.parameter?]
      · have apart : ¬((index : Handle) = function) := fun same => here same.symm
        simp [paramsOf, lookup?_modifyFunction, SymbolRequest.parameter?, here, apart]

theorem paramsOf_serve (served : table.serve request = some (answer, after)) (function : Handle) :
    after.paramsOf function =
      table.paramsOf function ++ (SymbolRequest.parameter? function (request, answer)).toList := by
  cases request with
  | addParameter target name type =>
    rw [serve] at served
    split at served
    · next isFunction => exact paramsOf_addParameter isFunction (Option.some.inj served) function
    · cases served
  | push name =>
    cases served
    exact (append_nil _).symm
  | pop =>
    rw [serve, pop, ScopeTree.pop] at served
    split at served
    · next popped =>
      split at popped <;> cases popped
      cases served
      exact (append_nil _).symm
    · cases served
      exact (append_nil _).symm
  | declareVariable | declareFunction =>
    exact (paramsOf_settle rfl (Option.some.inj served) function).trans (append_nil _).symm
  | newTemporary type =>
    cases served
    exact (paramsOf_append rfl rfl function).trans (append_nil _).symm
  | returnSlot =>
    rw [serve, getReturnSlot] at served
    split at served <;> cases served
    · exact (append_nil _).symm
    · exact (paramsOf_append rfl rfl function).trans (append_nil _).symm
  | resolve name =>
    rw [serve] at served
    split at served <;> cases served <;> exact (append_nil _).symm

theorem serve_error {failure : Failure} (served : table.serve request = some (.error failure, after)) :
    after = table := by
  have settled {result} (same : table.settle result = (.error failure, after)) : after = table := by
    cases result with
    | ok result => cases same
    | error error =>
      cases same
      rfl
  cases request with
  | push name => cases served
  | pop =>
    rw [serve] at served
    split at served <;> cases served
    rfl
  | declareVariable | declareFunction => exact settled (Option.some.inj served)
  | addParameter function name type =>
    rw [serve] at served
    split at served
    · exact settled (Option.some.inj served)
    · cases served
  | newTemporary type => cases served
  | returnSlot => cases served
  | resolve name =>
    rw [serve] at served
    split at served <;> cases served
    rfl

theorem paramsOf_serveAll (served : serveAll serve table requests = some (answers, after))
    (function : Handle) :
    after.paramsOf function = table.paramsOf function ++
      (requests.zip answers).filterMap (SymbolRequest.parameter? function) := by
  induction requests generalizing table answers with
  | nil =>
    cases served
    exact (append_nil _).symm
  | cons request rest ih =>
    obtain ⟨answer, next, later, first, behind, rfl⟩ := serveAll_cons served
    rw [ih behind, paramsOf_serve first, append_assoc, zip_cons_cons, filterMap_cons]
    cases SymbolRequest.parameter? function (request, answer) <;> rfl

variable {ledger : Ledger}

theorem Represents.of_serveAll (represents : table.Represents ledger)
    (served : ThreeAddress.serveAll SymbolTable.serve table requests = some (answers, after)) :
    ∃ next, ThreeAddress.serveAll Ledger.serve ledger requests = some (answers, next) ∧
      after.Represents next := by
  have related := represents.serveAll requests
  rw [served] at related
  obtain ⟨⟨_, next⟩, same, rfl, final⟩ := exists_right_of_rel related
  exact ⟨next, same, final⟩

theorem Represents.serves {next : Ledger} (represents : table.Represents ledger)
    (served : ThreeAddress.serveAll Ledger.serve ledger requests = some (answers, next)) :
    ∃ after, ThreeAddress.serveAll SymbolTable.serve table requests = some (answers, after) ∧
      after.Represents next := by
  have related := represents.serveAll requests
  rw [served] at related
  obtain ⟨⟨_, after⟩, same, rfl, final⟩ := exists_left_of_rel related
  exact ⟨after, same, final⟩

/--
A symbol table serves any requests as a stack of maps does.
Nothing that goes wrong has an effect, functions have the parameters that they were given, and names never lead to temporaries, no two of which share a name.
-/
theorem serveAll_refines_ledger {requests : List SymbolRequest} {answers : List SymbolAnswer}
    (asked : serveAll Ledger.serve Ledger.empty requests = some (answers, ledger)) :
    ∃ table, serveAll serve empty requests = some (answers, table) ∧ table.Represents ledger ∧
      (∀ more later after, serveAll serve table more = some (later, after) →
        table.symbols <+: after.symbols) ∧
      (∀ request failure after, table.serve request = some (.error failure, after) →
        after = table) ∧
      (∀ function, table.paramsOf function =
        (requests.zip answers).filterMap (SymbolRequest.parameter? function)) ∧
      ((table.symbols.filter LedgerSymbol.temporary).map LedgerSymbol.name).Nodup ∧
      ∀ name handle, table.resolve name = .ok handle →
        ∃ entry, table.lookup? handle = some entry ∧ entry.name = name ∧
          entry.sketch.temporary = false := by
  obtain ⟨table, served, represents⟩ := represents_empty.serves asked
  have tidy : ledger.Tidy := serveAll_preserves Ledger.Tidy
    (fun _ _ _ _ first tidy => (Ledger.advances_of_serve first).tidy tidy) asked Ledger.tidy_empty
  refine ⟨table, served, represents, ?_, ?_, ?_, ?_, ?_⟩
  · intro more later after continued
    obtain ⟨next, followed, represented⟩ := represents.of_serveAll continued
    rw [represents.symbols, represented.symbols]
    exact serveAll_preserves (fun state => ledger.symbols <+: state.symbols)
      (fun _ _ _ _ first kept => kept.trans (Ledger.advances_of_serve first).symbols) followed
      (prefix_refl _)
  · intro request failure after failed
    exact serve_error failed
  · intro function
    rw [paramsOf_serveAll served]
    cases function <;> rfl
  · rw [represents.symbols]
    exact tidy.distinct
  · intro name handle resolved
    have found : ledger.find? name = some handle := by
      rw [represents.find?_eq]
      simp only [resolve] at resolved
      split at resolved <;> cases resolved
      next found => rw [found]; rfl
    obtain ⟨symbol, known, rfl, named⟩ := tidy.find? found
    rw [represents.symbol?] at known
    obtain ⟨entry, looked, rfl⟩ := Option.map_eq_some_iff.mp known
    exact ⟨entry, looked, (Entry.name_sketch entry).symm, named⟩

/-- Two functions, a parameter that is there already, names that are hidden and closed, and a pop too many. -/
def nestedRequests : List SymbolRequest :=
  [.declareFunction "f" .int, .push "f", .addParameter 0 "a" .int, .addParameter 0 "a" .float,
    .newTemporary .int, .push "inner", .declareVariable "a" .char, .declareFunction "g" .float,
    .addParameter 4 "b" .int, .resolve "a", .returnSlot, .pop, .resolve "a", .resolve "t0", .pop,
    .resolve "a", .pop, .newTemporary .float, .returnSlot]

theorem serveAll_refines_ledger_nested :
    ∃ answers table ledger, serveAll Ledger.serve Ledger.empty nestedRequests = some (answers, ledger) ∧
      answers.map Except.toOption = [some (some 0), some none, some (some 1), none, some (some 2),
        some none, some (some 3), some (some 4), some (some 5), some (some 3), some (some 6),
        some none, some (some 1), none, some none, none, none, some (some 7), some (some 6)] ∧
      serveAll serve empty nestedRequests = some (answers, table) ∧ table.Represents ledger ∧
      table.paramsOf 0 = [1] ∧ table.paramsOf 4 = [5] := by
  have asked : (serveAll Ledger.serve Ledger.empty nestedRequests).map
      (fun run => run.1.map Except.toOption) =
      some [some (some 0), some none, some (some 1), none, some (some 2),
        some none, some (some 3), some (some 4), some (some 5), some (some 3), some (some 6),
        some none, some (some 1), none, some none, none, none, some (some 7), some (some 6)] := by
    decide +kernel
  have params : (serveAll serve empty nestedRequests).map
      (fun run => (run.2.paramsOf 0, run.2.paramsOf 4)) = some ([1], [5]) := by
    decide +kernel
  obtain ⟨⟨answers, ledger⟩, asked, same⟩ := Option.map_eq_some_iff.mp asked
  obtain ⟨table, served, represents, -⟩ := serveAll_refines_ledger asked
  rw [served, Option.map_some, Option.some.injEq, Prod.mk.injEq] at params
  exact ⟨answers, table, ledger, asked, same, served, represents, params⟩

end SymbolTable

end ThreeAddress

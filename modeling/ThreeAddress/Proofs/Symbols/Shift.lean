import ThreeAddress.Proofs.Symbols.Table

/-!
Symbol tables with entries in front.

Entries in front of all others move the handles of a table by their number, and every operation of the table goes on as before.
-/

namespace ThreeAddress

open List

namespace SymbolTable

/-- A handle that refers to an entry. -/
def Has (table : SymbolTable) (handle : Handle) : Prop := (table.lookup? handle).isSome = true

def Closed (table : SymbolTable) : Prop :=
  ∀ handle entry, table.lookup? handle = some (.func entry) → ∀ param ∈ entry.params, table.Has param

theorem Has.nonneg {table : SymbolTable} {handle : Handle} (has : table.Has handle) : 0 ≤ handle := by
  cases handle with
  | ofNat index => exact Int.natCast_nonneg index
  | negSucc index => cases has

end SymbolTable

/-- A handle once some entries stand in front. A handle that refers to nothing stays. -/
def Handle.shift (count : Nat) (handle : Handle) : Handle :=
  if 0 ≤ handle then handle + count else handle

namespace Handle

variable (count : Nat)

theorem shift_of_valid {handle : Handle} (valid : 0 ≤ handle) : handle.shift count = handle + count :=
  if_pos valid

theorem shift_natCast (index : Nat) : Handle.shift count (index : Int) = ((index + count : Nat) : Int) := by
  rw [shift_of_valid count (Int.natCast_nonneg index), Int.natCast_add]

theorem shift_absent : Handle.shift count Handle.absent = Handle.absent := rfl

theorem isValid_shift (handle : Handle) : (handle.shift count).isValid = handle.isValid := by
  by_cases valid : 0 ≤ handle
  · have moved : 0 ≤ handle + (count : Int) := Int.add_nonneg valid (Int.natCast_nonneg count)
    simp [shift, isValid, valid, moved]
  · simp [shift, isValid, valid]

end Handle

/-- A function once some entries stand in front. -/
def FunctionEntry.shift (count : Nat) (entry : FunctionEntry) : FunctionEntry :=
  { entry with params := entry.params.map (· + (count : Int)) }

/-- An entry once some entries stand in front. -/
def Entry.shift (count : Nat) : Entry → Entry
  | .var entry => .var entry
  | .func entry => .func (entry.shift count)

@[simp]
theorem Entry.name_shift (count : Nat) (entry : Entry) : (entry.shift count).name = entry.name := by
  cases entry <;> rfl

@[simp]
theorem Entry.type_shift (count : Nat) (entry : Entry) : (entry.shift count).type = entry.type := by
  cases entry <;> rfl

/-- A scope once some entries stand in front. -/
def Scope.shift (count : Nat) (scope : Scope) : Scope :=
  { scope with bindings := scope.bindings.map fun (name, handle) => (name, handle.shift count) }

theorem Scope.lookup?_shift (count : Nat) (scope : Scope) (name : Text) :
    (scope.shift count).lookup? name = (scope.lookup? name).map (Handle.shift count) := by
  simp only [shift, lookup?]
  induction scope.bindings with
  | nil => rfl
  | cons binding rest ih =>
    obtain ⟨other, handle⟩ := binding
    simp only [map_cons, lookup_cons]
    cases name == other with
    | true => rfl
    | false => exact ih

/-- The scopes once some entries stand in front. -/
def ScopeTree.shift (count : Nat) (tree : ScopeTree) : ScopeTree :=
  { tree with scopes := tree.scopes.map (Scope.shift count) }

namespace ScopeTree

variable (count : Nat) (tree : ScopeTree)

@[simp]
theorem scope?_shift (id : Nat) :
    (tree.shift count).scope? id = (tree.scope? id).map (Scope.shift count) :=
  getElem?_map

@[simp]
theorem nameOf_shift (id : Nat) : (tree.shift count).nameOf id = tree.nameOf id := by
  rw [nameOf, nameOf, scope?_shift]
  cases tree.scope? id <;> rfl

theorem lookup?_shift (id : Nat) (name : Text) :
    (tree.shift count).lookup? id name = (tree.lookup? id name).map (Handle.shift count) := by
  simp only [lookup?, scope?_shift]
  cases tree.scope? id with
  | none => rfl
  | some scope => exact scope.lookup?_shift count name

theorem resolve?_shift (id : Nat) (name : Text) :
    (tree.shift count).resolve? id name =
      (tree.resolve? id name).map (Prod.map (Handle.shift count) fun scope => scope) := by
  simp only [resolve?, scope?_shift, lookup?_shift]
  cases tree.scope? id with
  | none => rfl
  | some scope =>
    simp only [Option.map_some, Option.bind_eq_bind, Option.bind_some]
    -- The scopes around are gone through from the inside, whatever the handles in them are.
    show findSome? _ (id :: scope.enclosing) = _
    induction id :: scope.enclosing with
    | nil => rfl
    | cons first rest ih =>
      rw [findSome?_cons, findSome?_cons, ih]
      cases tree.lookup? first name <;> rfl

theorem define_shift (id : Nat) (name : Text) (handle : Handle) :
    (tree.shift count).define id name (handle.shift count) =
      (tree.define id name handle).shift count := by
  simp only [define, shift, ScopeTree.mk.injEq, and_true]
  refine ext_getElem? fun index => ?_
  simp only [getElem?_modify, getElem?_map]
  cases tree.scopes[index]? with
  | none => rfl
  | some scope =>
    simp only [Option.map_some]
    split
    · simp [Scope.define, Scope.shift]
    · rfl

theorem push_shift (name : Text) : (tree.shift count).push name = (tree.push name).shift count := by
  simp [push, shift, Scope.shift]

theorem pop_shift :
    (tree.shift count).pop = tree.pop.map (Prod.map (fun scope => scope) (ScopeTree.shift count)) := by
  simp only [pop, shift]
  split <;> rfl

end ScopeTree

/-- A table once some entries stand in front. -/
def SymbolTable.shift (front : List Entry) (table : SymbolTable) : SymbolTable where
  entries := front ++ table.entries.map (Entry.shift front.length)
  scopes := table.scopes.shift front.length
  temporaries := table.temporaries + front.length
  returnSlot := table.returnSlot.map (· + (front.length : Int))

namespace SymbolTable

variable (front : List Entry) (table : SymbolTable)

@[simp]
theorem size_shift : (table.shift front).size = table.size + front.length := by
  simp [size, shift, Nat.add_comm]

@[simp]
theorem here_shift : (table.shift front).here = table.here := rfl

@[simp]
theorem scopeName_shift : (table.shift front).scopeName = table.scopeName :=
  table.scopes.nameOf_shift front.length table.here

theorem declare_shift (scope : Nat) (entry : Entry) :
    (table.shift front).declare scope (entry.shift front.length) =
      (table.declare scope entry).map (Prod.map (Handle.shift front.length) (shift front)) := by
  have found : ((table.shift front).scopes.lookup? scope entry.name).isSome =
      (table.scopes.lookup? scope entry.name).isSome := by
    show ((table.scopes.shift front.length).lookup? scope entry.name).isSome = _
    rw [ScopeTree.lookup?_shift, Option.isSome_map]
  simp only [declare, Entry.name_shift, found]
  split
  · have named := table.scopes.nameOf_shift front.length scope
    simp only [shift, named, Except.map]
  · -- The new entry stands behind all others, on both sides.
    have handle : ((table.shift front).size : Int) = Handle.shift front.length (table.size : Int) := by
      rw [size_shift, Handle.shift_natCast]
    simp only [append, handle, Except.map, Prod.map, Except.ok.injEq, Prod.mk.injEq, true_and]
    simp only [shift, ScopeTree.define_shift, map_append, map_cons, map_nil, append_assoc]

/-- A change of a function goes as before, if it does not look at handles. -/
theorem modifyFunction_shift (handle : Handle) {change moved : FunctionEntry → FunctionEntry}
    (commutes : ∀ entry : FunctionEntry,
      moved (entry.shift front.length) = (change entry).shift front.length) :
    (table.shift front).modifyFunction ((handle.toNat : Int) + front.length) moved =
      (table.modifyFunction handle change).shift front := by
  simp only [modifyFunction, shift, SymbolTable.mk.injEq, and_true]
  generalize handle.toNat = index
  refine ext_getElem? fun other => ?_
  rw [show ((index : Int) + (front.length : Int)).toNat = index + front.length by omega,
    getElem?_modify]
  rcases Nat.lt_or_ge other front.length with early | late
  · -- The entries in front are not touched.
    have apart : index + front.length ≠ other := by omega
    rw [getElem?_append_left early, getElem?_append_left early]
    simp [apart]
  · -- Behind them the place of the function is the old one.
    rw [getElem?_append_right late, getElem?_append_right late, getElem?_map,
      getElem?_map, getElem?_modify]
    have same : (index + front.length = other) = (index = other - front.length) := by
      rw [eq_iff_iff]
      omega
    simp only [same]
    cases table.entries[other - front.length]? with
    | none => rfl
    | some entry =>
      by_cases here : index = other - front.length
      · cases entry with
        | var entry => simp [here, Entry.shift]
        | func entry => simp [here, Entry.shift, commutes]
      · simp [here]

theorem push_shift (name : Text) : (table.shift front).push name = (table.push name).shift front := by
  simp only [push, shift, ScopeTree.push_shift]

theorem pop_shift :
    (table.shift front).pop = table.pop.map (Prod.map (fun scope => scope) (shift front)) := by
  have scopes : (table.shift front).scopes.pop = _ := table.scopes.pop_shift front.length
  simp only [pop, scopes]
  cases table.scopes.pop <;> rfl

theorem openBody_shift (function : Handle) (name : Text) :
    (table.shift front).openBody ((function.toNat : Int) + front.length) name =
      (table.openBody function name).shift front := by
  simp only [openBody, push_shift, here_shift]
  exact modifyFunction_shift front _ function fun entry => rfl

theorem addParameter_shift (function : Handle) (name : Text) (type : ValueType) :
    (table.shift front).addParameter ((function.toNat : Int) + front.length) name type =
      (table.addParameter function name type).map
        (Prod.map (Handle.shift front.length) (shift front)) := by
  have declared : (table.shift front).declareParameter name type = _ :=
    table.declare_shift front table.here
      (.var { name, type, scope := some table.here, parameter := true })
  simp only [addParameter, declared]
  cases made : table.declareParameter name type with
  | error error =>
    rw [declareParameter] at made
    simp [made, Except.map, bind, Except.bind]
  | ok result =>
    obtain ⟨handle, after⟩ := result
    have isNew : 0 ≤ handle := by
      obtain ⟨rfl, -⟩ := declare_ok made
      exact Int.natCast_nonneg _
    rw [declareParameter] at made
    simp only [made, Except.map, bind, Except.bind, pure, Except.pure, Prod.map]
    -- The list of parameters grows by the handle of the new entry, which is moved like the others.
    rw [modifyFunction_shift front after function]
    intro entry
    simp [FunctionEntry.shift, Handle.shift_of_valid _ isNew]

theorem resolve_shift (name : Text) :
    (table.shift front).resolve name = (table.resolve name).map (Handle.shift front.length) := by
  have found : (table.shift front).scopes.resolve? table.here name = _ :=
    table.scopes.resolve?_shift front.length table.here name
  simp only [resolve, here_shift, found, scopeName_shift]
  cases table.scopes.resolve? table.here name <;> rfl

end SymbolTable

/-! Temporaries that are made before anything is declared. -/

def temporaryName (number : Nat) : Text := "t" ++ Text.ofNat number

def Entry.temporary (number : Nat) (type : ValueType) : Entry :=
  .var { name := temporaryName number, type, temporary := true }

theorem Entry.temporary_inj {number other : Nat} {type otherType : ValueType}
    (same : Entry.temporary number type = Entry.temporary other otherType) :
    number = other ∧ type = otherType := by
  simp only [temporary, Entry.var.injEq, VariableEntry.mk.injEq] at same
  exact ⟨Text.ofNat_injective (append_cancel_left same.1), same.2.1⟩

/-- A temporary: a variable made by code generation that is not the one for results. -/
def Entry.isTemporary : Entry → Bool
  | .var entry => entry.temporary && entry.name != "0return"
  | .func _ => false

/-- Temporaries of some types are made one after the other. -/
def SymbolTable.reserve (types : List ValueType) (table : SymbolTable) : SymbolTable :=
  types.foldl (fun table type => (table.newTemporary type).2) table

/-- The entries of temporaries of some types, numbered from zero on. -/
def reservedEntries (types : List ValueType) : List Entry :=
  types.zipIdx.map fun (type, number) => Entry.temporary number type

@[simp]
theorem length_reservedEntries (types : List ValueType) :
    (reservedEntries types).length = types.length := by
  simp [reservedEntries]

theorem reservedEntries_concat (types : List ValueType) (type : ValueType) :
    reservedEntries (types ++ [type]) = reservedEntries types ++ [.temporary types.length type] := by
  simp [reservedEntries, zipIdx_append]

theorem SymbolTable.reserve_empty (types : List ValueType) :
    SymbolTable.empty.reserve types = SymbolTable.empty.shift (reservedEntries types) := by
  -- One temporary after the other is appended, with the number of those before it.
  have made : ∀ (table : SymbolTable), table.reserve types = { table with
      entries := table.entries ++ (types.zipIdx table.temporaries).map fun (type, number) =>
        Entry.temporary number type
      temporaries := table.temporaries + types.length } := by
    induction types with
    | nil => intro table; simp [reserve]
    | cons type rest ih =>
      intro table
      show ((table.newTemporary type).2).reserve rest = _
      rw [ih]
      simp [newTemporary, append, Entry.temporary, temporaryName, zipIdx_cons]
      omega
  rw [made]
  simp [shift, empty, reservedEntries, ScopeTree.shift, ScopeTree.push, ScopeTree.empty, Scope.shift]

end ThreeAddress

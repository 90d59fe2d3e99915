import ThreeAddress.Symbols.Environment

/-!
What the tables hold while a program is read.

The global scope binds functions, and every other scope binds variables of its own.
Entries and constants are only ever appended.
-/

namespace ThreeAddress

open List

section Append

variable {α : Type} {list more : List α} {index : Nat} {entry : α}

theorem getElem?_of_prefix (grown : list <+: more) (found : list[index]? = some entry) :
    more[index]? = some entry := by
  obtain ⟨inside, rfl⟩ := List.getElem?_eq_some_iff.mp found
  exact prefix_iff_getElem?.mp grown index inside

theorem getElem?_concat (list : List α) (entry : α) (index : Nat) :
    (list ++ [entry])[index]? = if index = list.length then some entry else list[index]? := by
  rcases Nat.lt_trichotomy index list.length with inside | rfl | outside
  · rw [getElem?_append_left inside, if_neg (Nat.ne_of_lt inside)]
  · simp
  · rw [if_neg (Nat.ne_of_gt outside), getElem?_eq_none (Nat.le_of_lt outside),
      getElem?_eq_none (by simp; omega)]

end Append

namespace ScopeTree

variable {id : Nat} {tree : ScopeTree} {other : Nat} {name : Text} {handle : Handle}

theorem scope?_define {scope : Scope}
    (found : (tree.define id name handle).scope? other = some scope) :
    ∃ earlier, tree.scope? other = some earlier ∧ scope.name = earlier.name ∧
      scope.enclosing = earlier.enclosing := by
  simp only [scope?, define, getElem?_modify] at found ⊢
  obtain ⟨earlier, at_, rfl⟩ := Option.map_eq_some_iff.mp found
  refine ⟨earlier, at_, ?_⟩
  split <;> exact ⟨rfl, rfl⟩

theorem lookup?_define_eq (inside : id < tree.scopes.length) (name : Text) (handle : Handle)
    (other : Nat) (text : Text) :
    (tree.define id name handle).lookup? other text =
      if other = id then (tree.lookup? other text).or ([(name, handle)].lookup text)
      else tree.lookup? other text := by
  simp only [lookup?, scope?, define, getElem?_modify]
  by_cases here : other = id
  · subst here
    have found := getElem?_eq_getElem inside
    simp [found, Scope.lookup?, Scope.define, lookup_append]
  · have apart : id ≠ other := Ne.symm here
    simp [here, apart]

theorem lookup?_define {text : Text} {found : Handle}
    (looked : (tree.define id name handle).lookup? other text = some found) :
    tree.lookup? other text = some found ∨ other = id ∧ found = handle := by
  by_cases inside : id < tree.scopes.length
  · rw [lookup?_define_eq inside] at looked
    split at looked
    · next here =>
      rcases Option.or_eq_some_iff.mp looked with before | ⟨-, new⟩
      · exact .inl before
      · rw [lookup_cons] at new
        split at new
        · exact .inr ⟨here, (Option.some.inj new).symm⟩
        · cases new
    · exact .inl looked
  · rw [define, modify_eq_self (Nat.le_of_not_lt inside)] at looked
    exact .inl looked

/-- Scopes keep their names when names are added to them. -/
theorem nameOf_define (tree : ScopeTree) (id : Nat) (name : Text) (handle : Handle) (other : Nat) :
    (tree.define id name handle).nameOf other = tree.nameOf other := by
  simp only [nameOf, scope?, define, getElem?_modify]
  cases tree.scopes[other]? with
  | none => rfl
  | some scope =>
    by_cases here : id = other
    · simp [here, Scope.define]
    · simp [here]

theorem lookup?_push (tree : ScopeTree) (name : Text) (other : Nat) (text : Text) :
    (tree.push name).lookup? other text =
      if other = tree.scopes.length then none else tree.lookup? other text := by
  simp only [lookup?, scope?, push, getElem?_concat]
  split <;> rfl

end ScopeTree

/-- Whether a scope may bind an entry: the global scope functions, any other its own variables. -/
def Entry.BelongsTo (scope : Nat) : Entry → Prop
  | .var entry => scope ≠ 0 ∧ entry.scope = some scope ∧ entry.temporary = false
  | .func _ => scope = 0

/-- A function once it is changed, or a variable as it is. -/
def Entry.changed (change : FunctionEntry → FunctionEntry) : Entry → Entry
  | .var entry => .var entry
  | .func entry => .func (change entry)

theorem Entry.name_changed {change : FunctionEntry → FunctionEntry}
    (keeps : ∀ entry, (change entry).name = entry.name) (entry : Entry) :
    (entry.changed change).name = entry.name := by
  cases entry with
  | var entry => rfl
  | func entry => exact keeps entry

namespace SymbolTable

/-- The number of scopes ever opened. -/
abbrev scopeCount (table : SymbolTable) : Nat := table.scopes.scopes.length

/-- A table without temporaries whose scopes bind what belongs to them. -/
structure Sound (table : SymbolTable) : Prop where
  globals : ∃ scope, table.scopes.scope? 0 = some scope ∧ scope.name = globalScope
  nested : ∀ id scope, id ≠ 0 → table.scopes.scope? id = some scope → scope.enclosing = [0]
  bound : ∀ id name handle, table.scopes.lookup? id name = some handle →
    ∃ entry, table.lookup? handle = some entry ∧ entry.BelongsTo id
  lasting : ∀ entry, Entry.var entry ∈ table.entries → entry.temporary = false
  numbered : table.temporaries = 0
  slotless : table.returnSlot = none

theorem sound_empty : empty.Sound where
  globals := ⟨_, rfl, rfl⟩
  nested id scope inner found := by
    cases id with
    | zero => exact absurd rfl inner
    | succ id => simp [empty, ScopeTree.push, ScopeTree.empty, ScopeTree.scope?] at found
  bound id name handle found := by
    cases id with
    | zero => simp [empty, ScopeTree.push, ScopeTree.empty, ScopeTree.lookup?, ScopeTree.scope?,
        Scope.lookup?] at found
    | succ id => simp [empty, ScopeTree.push, ScopeTree.empty, ScopeTree.lookup?,
        ScopeTree.scope?] at found
  lasting := by simp [empty]
  numbered := rfl
  slotless := rfl

variable {entry : Entry} {handle : Handle} {later table after : SymbolTable} {scope : Nat}
  {name : Text}

theorem lookup?_of_prefix (grown : table.entries <+: later.entries)
    (found : table.lookup? handle = some entry) : later.lookup? handle = some entry := by
  cases handle with
  | negSucc index => cases found
  | ofNat index => exact getElem?_of_prefix grown found

theorem lookup?_congr {other : SymbolTable} (same : table.entries = other.entries) (handle : Handle) :
    table.lookup? handle = other.lookup? handle := by
  unfold lookup?
  rw [same]

theorem lt_size_of_lookup? (found : table.lookup? handle = some entry) :
    handle < (table.size : Int) := by
  cases handle with
  | negSucc index => simp [lookup?] at found
  | ofNat index => exact Int.ofNat_lt.mpr (List.getElem?_eq_some_iff.mp found).1

theorem mem_of_lookup? (found : table.lookup? handle = some entry) : entry ∈ table.entries := by
  cases handle with
  | negSucc index => cases found
  | ofNat index => exact mem_of_getElem? found

/-- An appended entry is found under the next handle, and every other as before. -/
theorem lookup?_append (same : later.entries = table.entries ++ [entry]) (handle : Handle) :
    later.lookup? handle =
      if handle = (table.size : Nat) then some entry else table.lookup? handle := by
  cases handle with
  | negSucc index => simp [lookup?]
  | ofNat index =>
    simp only [lookup?, same, size, Int.ofNat_eq_natCast, Int.natCast_inj]
    exact getElem?_concat table.entries entry index

theorem declare_ok (declared : table.declare scope entry = .ok (handle, after)) :
    handle = (table.size : Nat) ∧
      after = { table with
        entries := table.entries ++ [entry]
        scopes := table.scopes.define scope entry.name handle } := by
  simp only [declare, append] at declared
  split at declared
  · cases declared
  · cases declared
    exact ⟨rfl, rfl⟩

theorem declare_fresh (declared : table.declare scope entry = .ok (handle, after)) :
    table.scopes.lookup? scope entry.name = none := by
  simp only [declare] at declared
  split at declared
  · cases declared
  · rename_i unbound
    exact Option.not_isSome_iff_eq_none.mp unbound

variable {function : Handle} {type : ValueType}

theorem addParameter_eq (added : table.addParameter function name type = .ok (handle, later)) :
    ∃ declared, table.declareParameter name type = .ok (handle, declared) ∧
      later = declared.modifyFunction function fun entry =>
        { entry with params := entry.params ++ [handle] } := by
  simp only [addParameter] at added
  cases made : table.declareParameter name type with
  | error error => simp [made, bind, Except.bind] at added
  | ok result =>
    obtain ⟨fresh, declared⟩ := result
    simp only [made, bind, Except.bind, pure, Except.pure, Except.ok.injEq, Prod.mk.injEq] at added
    obtain ⟨rfl, rfl⟩ := added
    exact ⟨declared, rfl, rfl⟩

theorem Sound.declare (sound : table.Sound) (belongs : entry.BelongsTo scope)
    (declared : table.declare scope entry = .ok (handle, after)) : after.Sound := by
  obtain ⟨rfl, rfl⟩ := declare_ok declared
  refine { sound with globals := ?_, nested := ?_, bound := ?_, lasting := ?_ }
  · obtain ⟨globals, found, name⟩ := sound.globals
    refine ⟨if scope = 0 then globals.define entry.name table.size else globals, ?_, ?_⟩
    · have first : table.scopes.scopes[0]? = some globals := found
      simp only [ScopeTree.scope?, ScopeTree.define, getElem?_modify, first]
      split <;> rfl
    · split <;> exact name
  · intro id inner notGlobal found
    obtain ⟨earlier, before, _, same⟩ := ScopeTree.scope?_define found
    rw [same]
    exact sound.nested id earlier notGlobal before
  · intro id name handle found
    rcases ScopeTree.lookup?_define found with before | ⟨rfl, rfl⟩
    · obtain ⟨known, looked, inside⟩ := sound.bound id name handle before
      exact ⟨known, lookup?_of_prefix (prefix_append _ _) looked, inside⟩
    · exact ⟨entry, by rw [lookup?_append rfl, if_pos rfl], belongs⟩
  · intro held member
    rcases mem_append.mp member with before | new
    · exact sound.lasting held before
    · cases mem_singleton.mp new
      exact belongs.2.2

theorem lookup?_modifyFunction (table : SymbolTable) (index : Nat)
    (change : FunctionEntry → FunctionEntry) (handle : Handle) :
    (table.modifyFunction (index : Nat) change).lookup? handle =
      if handle = (index : Nat) then (table.lookup? handle).map (Entry.changed change)
      else table.lookup? handle := by
  cases handle with
  | negSucc other => simp [lookup?]
  | ofNat other =>
    simp only [lookup?, modifyFunction, getElem?_modify, Int.ofNat_eq_natCast, Int.toNat_natCast,
      Int.natCast_inj]
    cases table.entries[other]? with
    | none => simp
    | some entry =>
      by_cases here : index = other
      · subst here
        cases entry <;> simp [Entry.changed]
      · simp [here, Ne.symm here]

/-- What is known of an entry stays known when a function is changed, unless it is about what changes. -/
theorem exists_lookup?_modifyFunction {good : Entry → Prop} {change : FunctionEntry → FunctionEntry}
    (keeps : ∀ entry, good entry → good (entry.changed change))
    (known : ∃ entry, table.lookup? handle = some entry ∧ good entry) :
    ∃ entry, (table.modifyFunction function change).lookup? handle = some entry ∧ good entry := by
  obtain ⟨entry, found, isGood⟩ := known
  have indexed : table.modifyFunction function change =
      table.modifyFunction (function.toNat : Nat) change := rfl
  rw [indexed, lookup?_modifyFunction, found]
  split
  · exact ⟨entry.changed change, rfl, keeps entry isGood⟩
  · exact ⟨entry, rfl, isGood⟩

variable {index : Nat}

theorem prefix_modifyFunction {earlier : List Entry} (grown : earlier <+: table.entries)
    (behind : earlier.length ≤ index) (change : FunctionEntry → FunctionEntry) :
    earlier <+: (table.modifyFunction (index : Nat) change).entries := by
  rw [prefix_iff_getElem?] at grown ⊢
  intro other inside
  have apart : index ≠ other := by omega
  simp [modifyFunction, apart, grown other inside]

theorem Sound.modifyFunction (sound : table.Sound) (index : Nat)
    (change : FunctionEntry → FunctionEntry) :
    (table.modifyFunction (index : Nat) change).Sound :=
  { sound with
    bound := fun id name handle found => exists_lookup?_modifyFunction
      (fun entry inside => by cases entry <;> exact inside) (sound.bound id name handle found)
    lasting := fun held member => by
      obtain ⟨other, at_⟩ := mem_iff_getElem?.mp member
      have looked : (table.modifyFunction (index : Nat) change).lookup? (other : Nat) =
        some (.var held) := at_
      rw [lookup?_modifyFunction] at looked
      -- A variable is what it was before the change.
      have before : table.lookup? (other : Nat) = some (.var held) := by
        split at looked
        · obtain ⟨entry, found, same⟩ := Option.map_eq_some_iff.mp looked
          cases entry with
          | var entry => cases same; exact found
          | func entry => cases same
        · exact looked
      exact sound.lasting held (mem_of_getElem? before) }

theorem Sound.present (sound : table.Sound) : 0 < table.scopeCount := by
  obtain ⟨scope, found, _⟩ := sound.globals
  exact (List.getElem?_eq_some_iff.mp found).1

theorem Sound.push (sound : table.Sound) (top : table.scopes.path = [0]) (name : Text) :
    (table.push name).Sound := by
  have present : 0 < table.scopes.scopes.length := sound.present
  have cases_ : ∀ id scope, (table.push name).scopes.scope? id = some scope →
      table.scopes.scope? id = some scope ∨
        id = table.scopes.scopes.length ∧ scope = { name, enclosing := [0] } := by
    intro id scope found
    simp only [SymbolTable.push, ScopeTree.push, ScopeTree.scope?, top, getElem?_concat] at found ⊢
    split at found
    · next last => exact .inr ⟨last, (Option.some.inj found).symm⟩
    · exact .inl found
  refine { sound with globals := ?_, nested := ?_, bound := ?_ }
  · obtain ⟨scope, found, named⟩ := sound.globals
    refine ⟨scope, ?_, named⟩
    simp only [SymbolTable.push, ScopeTree.push, ScopeTree.scope?]
    rw [getElem?_append_left present]
    exact found
  · intro id scope inner found
    rcases cases_ id scope found with before | ⟨_, rfl⟩
    · exact sound.nested id scope inner before
    · rfl
  · intro id text handle found
    simp only [ScopeTree.lookup?] at found
    obtain ⟨scope, at_, looked⟩ := Option.bind_eq_some_iff.mp found
    rcases cases_ id scope at_ with before | ⟨_, rfl⟩
    · refine sound.bound id text handle ?_
      simp only [ScopeTree.lookup?, before]
      exact looked
    · simp [Scope.lookup?] at looked

theorem pop_ok {outer : Nat} (path : table.scopes.path = [scope, outer]) :
    table.pop = .ok (scope, { table with scopes.path := [outer] }) := by
  simp [pop, ScopeTree.pop, path, bind, Except.bind, pure, Except.pure]

section

variable (sound : table.Sound)
include sound

theorem openBody_ok {declared : SymbolTable} {returns : ValueType} (top : table.scopes.path = [0])
    (made : table.declareFunction name returns = .ok (handle, declared)) :
    handle = (table.size : Nat) ∧ (declared.openBody handle name).Sound ∧
      (declared.openBody handle name).scopes.path = [table.scopeCount, 0] ∧
      (declared.openBody handle name).scopeCount = table.scopeCount + 1 ∧
      table.entries <+: (declared.openBody handle name).entries ∧
      ∀ other, (declared.openBody handle name).lookup? other = if other = (table.size : Nat) then
          some (.func { name, returns, body := some table.scopeCount })
        else table.lookup? other := by
  have global : (Entry.func { name, returns }).BelongsTo 0 := rfl
  have kept := sound.declare global made
  obtain ⟨rfl, rfl⟩ := declare_ok made
  -- Binding the name changes a scope and leaves their number.
  have count : (table.scopes.scopes.modify 0 fun scope =>
      scope.define name table.size).length = table.scopeCount := length_modify _ _ _
  refine ⟨rfl, (kept.push top name).modifyFunction _ _, ?_, ?_, ?_, ?_⟩
  · simp only [openBody, modifyFunction, push, ScopeTree.push, ScopeTree.define, top, Entry.name,
      count]
  · simp [openBody, modifyFunction, push, ScopeTree.push, ScopeTree.define, scopeCount, Entry.name]
  · exact prefix_modifyFunction (prefix_append _ _) (Nat.le_refl _) _
  · intro other
    rw [openBody, lookup?_modifyFunction, lookup?_append rfl other]
    split
    · simp [Entry.changed, here, push, ScopeTree.push, ScopeTree.define, Entry.name, count]
    · rfl

theorem Sound.scopeName_eq (top : table.scopes.path = [0]) :
    table.scopeName = globalScope := by
  obtain ⟨scope, found, named⟩ := sound.globals
  simp [scopeName, here, top, ScopeTree.nameOf, found, named]

theorem addParameter_ok {function : FunctionEntry} (inner : scope ≠ 0)
    (here : table.here = scope) (found : table.lookup? (index : Nat) = some (.func function))
    (added : table.addParameter (index : Nat) name type = .ok (handle, after)) :
    handle = (table.size : Nat) ∧ after.Sound ∧ after.scopes.path = table.scopes.path ∧
      after.scopeCount = table.scopeCount ∧
      (∀ earlier, earlier <+: table.entries → earlier.length ≤ index → earlier <+: after.entries) ∧
      ∀ other, after.lookup? other = if other = (index : Nat) then
          some (.func { function with params := function.params ++ [handle] })
        else if other = (table.size : Nat) then
          some (.var { name, type, scope := some scope, parameter := true })
        else table.lookup? other := by
  obtain ⟨middle, declared, rfl⟩ := addParameter_eq added
  rw [declareParameter, here] at declared
  have belongs : (Entry.var ⟨name, type, some scope, false, true⟩).BelongsTo scope :=
    ⟨inner, rfl, rfl⟩
  have kept := sound.declare belongs declared
  obtain ⟨rfl, rfl⟩ := declare_ok declared
  have earlier : index < table.size := (List.getElem?_eq_some_iff.mp found).1
  refine ⟨rfl, kept.modifyFunction _ _, rfl, length_modify _ _ _, ?_, ?_⟩
  · intro before grown inside
    exact prefix_modifyFunction (grown.trans (prefix_append _ _)) inside _
  · intro other
    rw [lookup?_modifyFunction, lookup?_append rfl other]
    split
    · rename_i same
      subst same
      have old : (index : Int) ≠ (table.size : Nat) := by omega
      rw [if_neg old, found]
      rfl
    · rfl

/-- Scopes are nested once, so a name is found in the open scope, or else in the global one. -/
theorem Sound.resolve_cases (inner : scope ≠ 0)
    (path : table.scopes.path = [scope, 0]) (found : table.resolve name = .ok handle) :
    table.scopes.lookup? scope name = some handle ∨
      table.scopes.lookup? scope name = none ∧ table.scopes.lookup? 0 name = some handle := by
  simp only [SymbolTable.resolve, here, path, headD_cons, ScopeTree.resolve?] at found
  cases at_ : table.scopes.scope? scope with
  | none => simp [at_] at found
  | some opened =>
    have around := sound.nested scope opened inner at_
    simp only [at_, around, Option.bind_eq_bind, Option.bind_some, findSome?_cons,
      findSome?_nil] at found
    cases local_ : table.scopes.lookup? scope name with
    | some first => simpa [local_] using found
    | none =>
      cases global : table.scopes.lookup? 0 name with
      | some first => simpa [local_, global] using found
      | none => simp [local_, global] at found

theorem Sound.resolve (inner : scope ≠ 0)
    (path : table.scopes.path = [scope, 0]) (found : table.resolve name = .ok handle) :
    ∃ entry, table.lookup? handle = some entry ∧ (entry.BelongsTo scope ∨ entry.BelongsTo 0) := by
  rcases sound.resolve_cases inner path found with bound | ⟨-, bound⟩
  · obtain ⟨entry, looked, belongs⟩ := sound.bound scope name handle bound
    exact ⟨entry, looked, .inl belongs⟩
  · obtain ⟨entry, looked, belongs⟩ := sound.bound 0 name handle bound
    exact ⟨entry, looked, .inr belongs⟩

end

end SymbolTable

namespace ConstantTable

variable {table : ConstantTable} {handle : Handle}

theorem lookup?_of_prefix {later : ConstantTable} (grown : table.constants <+: later.constants)
    {constant : Constant} (found : table.lookup? handle = some constant)
    : later.lookup? handle = some constant := by
  cases handle with
  | negSucc index => cases found
  | ofNat index => exact getElem?_of_prefix grown found

/-- A key leads to the first constant that has it. -/
theorem lookup_index (table : ConstantTable) (key : Text) : table.index.lookup key =
    (table.constants.findIdx? fun other => other.key == key).map Int.ofNat := by
  rw [table.indexed]
  -- Handles are places, so that of the front is added to every place behind it.
  have shifted : ∀ (constants : List Constant) (place : Nat),
      ((constants.zipIdx place).map fun entry => (entry.1.key, Int.ofNat entry.2)).lookup key =
        (constants.findIdx? fun other => other.key == key).map fun found => ((found + place : Nat) : Int) := by
    intro constants
    induction constants with
    | nil => exact fun _ => rfl
    | cons first rest ih =>
      intro place
      rw [zipIdx_cons, map_cons, lookup_cons, findIdx?_cons, Bool.beq_comm, ih]
      cases first.key == key with
      | true => simp
      | false => simp [Function.comp_def, Nat.add_comm, Nat.add_left_comm]
  exact shifted table.constants 0

theorem intern_ok {after : ConstantTable} {text : Text} {isCharacter : Bool}
    (interned : table.intern text isCharacter = .ok (handle, after)) :
    table.constants <+: after.constants ∧ (after.lookup? handle).isSome = true := by
  simp only [intern, enter, lookup_index] at interned
  cases made : Constant.ofLiteral text isCharacter with
  | error error => simp [made, bind, Except.bind] at interned
  | ok constant =>
    simp only [made, bind, Except.bind, pure, Except.pure, Except.ok.injEq] at interned
    split at interned
    · rename_i index found
      cases interned
      obtain ⟨place, isPlace, rfl⟩ := Option.map_eq_some_iff.mp found
      obtain ⟨inside, _⟩ := findIdx?_eq_some_iff_getElem.mp isPlace
      exact ⟨prefix_refl _, by simp [lookup?, inside]⟩
    · cases interned
      exact ⟨prefix_append _ _, by simp [lookup?, size]⟩

end ConstantTable

/-- What reading the words of a block can do to the tables. -/
structure Environment.Grown (before after : Environment) : Prop where
  entries : before.symbols.entries <+: after.symbols.entries
  constants : before.constants.constants <+: after.constants.constants
  /-- Only variables were added. -/
  functions : ∀ {handle entry}, after.symbols.lookup? handle = some (.func entry) →
    before.symbols.lookup? handle = some (.func entry)
  /-- No scope was opened. -/
  scopes : after.symbols.scopeCount = before.symbols.scopeCount

namespace Environment.Grown

variable {first second third : Environment}

theorem refl (environment : Environment) : environment.Grown environment where
  entries := prefix_refl _
  constants := prefix_refl _
  functions found := found
  scopes := rfl

/-- Declaring a variable adds it only. -/
theorem declare {environment : Environment} {after : SymbolTable} {scope : Nat}
    {held : VariableEntry} {handle : Handle}
    (declared : environment.symbols.declare scope (.var held) = .ok (handle, after)) :
    environment.Grown { environment with symbols := after } := by
  obtain ⟨rfl, rfl⟩ := SymbolTable.declare_ok declared
  exact {
    entries := prefix_append _ _
    constants := prefix_refl _
    functions := by
      intro handle entry found
      rw [SymbolTable.lookup?_append rfl] at found
      split at found
      · cases found
      · exact found
    scopes := length_modify _ _ _ }

theorem trans (left : first.Grown second) (right : second.Grown third) : first.Grown third where
  entries := left.entries.trans right.entries
  constants := left.constants.trans right.constants
  functions found := left.functions (right.functions found)
  scopes := right.scopes.trans left.scopes

end Environment.Grown

end ThreeAddress

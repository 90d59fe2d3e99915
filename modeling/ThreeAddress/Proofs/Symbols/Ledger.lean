import ThreeAddress.Proofs.Symbols.Table

/-!
A symbol table as a stack of maps.

A ledger keeps a map from names to handles for every open scope, and a list of symbols.
It forgets a scope when it is closed, and what functions and variables know of scopes.
-/

namespace ThreeAddress

open List

/-- What can be asked of a symbol table. -/
inductive SymbolRequest where
  | push (name : Text)
  | pop
  | declareVariable (name : Text) (type : ValueType)
  | declareFunction (name : Text) (returns : ValueType)
  /-- A parameter for a function of the table. -/
  | addParameter (function : Handle) (name : Text) (type : ValueType)
  | newTemporary (type : ValueType)
  | returnSlot
  | resolve (name : Text)
deriving DecidableEq, Repr

/-- What is answered: a handle, where one is asked for, or a failure. -/
abbrev SymbolAnswer := Except Failure (Option Handle)

/-- Serves requests one after the other, as long as each of them can be served. -/
def serveAll {σ : Type} (serve : σ → SymbolRequest → Option (SymbolAnswer × σ)) (state : σ) :
    List SymbolRequest → Option (List SymbolAnswer × σ)
  | [] => some ([], state)
  | request :: rest => do
    let (answer, next) ← serve state request
    let (answers, last) ← serveAll serve next rest
    return (answer :: answers, last)

section serveAll

variable {σ : Type} {serve : σ → SymbolRequest → Option (SymbolAnswer × σ)} {state last : σ}
  {request : SymbolRequest} {requests : List SymbolRequest} {answers : List SymbolAnswer}

theorem serveAll_cons (served : serveAll serve state (request :: requests) = some (answers, last)) :
    ∃ answer next later, serve state request = some (answer, next) ∧
      serveAll serve next requests = some (later, last) ∧ answers = answer :: later := by
  simp only [serveAll, Option.bind_eq_bind, Option.bind_eq_some_iff, Prod.exists] at served
  obtain ⟨answer, next, first, later, final, rest, same⟩ := served
  cases same
  exact ⟨answer, next, later, first, rest, rfl⟩

theorem serveAll_preserves (Good : σ → Prop)
    (step : ∀ state request answer next, serve state request = some (answer, next) →
      Good state → Good next)
    (served : serveAll serve state requests = some (answers, last)) (good : Good state) :
    Good last := by
  induction requests generalizing state answers with
  | nil =>
    cases served
    exact good
  | cons request rest ih =>
    obtain ⟨answer, next, later, first, behind, rfl⟩ := serveAll_cons served
    exact ih behind (step state request answer next first good)

end serveAll

/-- A symbol, without the scope it was declared in and without parameters. -/
structure LedgerSymbol where
  name : Text
  type : ValueType
  isFunction : Bool := false
  temporary : Bool := false
deriving DecidableEq, Repr

/-- An open scope: its name, and what the names in it stand for. -/
structure LedgerFrame where
  name : Text
  names : Text → Option Handle

/-- Gives a name a meaning. -/
def LedgerFrame.define (frame : LedgerFrame) (name : Text) (handle : Handle) : LedgerFrame :=
  { frame with names := fun text => if text = name then some handle else frame.names text }

/-- The open scopes from the inside out, the symbols in the order of their handles, and the temporaries made so far. -/
structure Ledger where
  stack : List LedgerFrame
  symbols : List LedgerSymbol := []
  temporaries : Nat := 0
  slot : Option Handle := none

namespace Ledger

/-- The ledger without symbols, in its global scope. -/
def empty : Ledger := { stack := [⟨SymbolTable.globalScope, fun _ => none⟩] }

def symbol? (ledger : Ledger) : Handle → Option LedgerSymbol
  | .ofNat index => ledger.symbols[index]?
  | .negSucc _ => none

/-- Adds a symbol, the handle of which is the number of symbols before it. -/
def append (ledger : Ledger) (symbol : LedgerSymbol) : Handle × Ledger :=
  (ledger.symbols.length, { ledger with symbols := ledger.symbols ++ [symbol] })

/-- Adds a symbol and binds its name in the scope at a depth. -/
def declared (ledger : Ledger) (depth : Nat) (symbol : LedgerSymbol) : Ledger :=
  { (ledger.append symbol).2 with
    stack := ledger.stack.modify depth fun frame =>
      frame.define symbol.name (ledger.append symbol).1 }

/-- Declares a symbol in the scope at a depth. It fails exactly if that scope has the name. -/
def declare (ledger : Ledger) (depth : Nat) (symbol : LedgerSymbol) : Option (SymbolAnswer × Ledger) := do
  let frame ← ledger.stack[depth]?
  if (frame.names symbol.name).isSome then
    return (.error (.diagnostic (.duplicateDeclaration symbol.name frame.name)), ledger)
  else
    return (.ok (some (ledger.append symbol).1), ledger.declared depth symbol)

/-- What a name stands for: the innermost scope that has it counts. -/
def find? (ledger : Ledger) (name : Text) : Option Handle :=
  ledger.stack.findSome? fun frame => frame.names name

/-- Serves a request. None is the answer where a parameter is not for a function. -/
def serve (ledger : Ledger) : SymbolRequest → Option (SymbolAnswer × Ledger)
  | .push name => some (.ok none, { ledger with stack := ⟨name, fun _ => none⟩ :: ledger.stack })
  | .pop =>
    match ledger.stack with
    | _ :: outer :: rest => some (.ok none, { ledger with stack := outer :: rest })
    | _ => some (.error (.fault .popGlobalScope), ledger)
  | .declareVariable name type => ledger.declare 0 { name, type }
  -- Functions are global, whatever scope is open.
  | .declareFunction name returns =>
    ledger.declare (ledger.stack.length - 1) { name, type := returns, isFunction := true }
  | .addParameter function name type =>
    if (ledger.symbol? function).any LedgerSymbol.isFunction then ledger.declare 0 { name, type }
    else none
  | .newTemporary type =>
    let (handle, appended) := ledger.append
      { name := "t" ++ Text.ofNat ledger.temporaries, type, temporary := true }
    some (.ok (some handle), { appended with temporaries := ledger.temporaries + 1 })
  | .returnSlot =>
    match ledger.slot with
    | some handle => some (.ok (some handle), ledger)
    | none =>
      let (handle, appended) := ledger.append
        { name := "0return", type := .untyped, temporary := true }
      some (.ok (some handle), { appended with slot := some handle })
  | .resolve name =>
    match ledger.find? name with
    | some handle => some (.ok (some handle), ledger)
    | none => do
      let frame ← ledger.stack.head?
      return (.error (.diagnostic (.undeclaredSymbol name frame.name)), ledger)

variable {ledger next : Ledger} {request : SymbolRequest} {answer : SymbolAnswer}

/-- What a request can do: open and close scopes, declare a symbol, or make a temporary or the slot. -/
inductive Advances (ledger : Ledger) : Ledger → Prop where
  | scopes (stack : List LedgerFrame)
      (known : ∀ frame ∈ stack, frame ∈ ledger.stack ∨ ∀ name, frame.names name = none) :
      ledger.Advances { ledger with stack }
  | declared (depth : Nat) (symbol : LedgerSymbol) (named : symbol.temporary = false) :
      ledger.Advances (ledger.declared depth symbol)
  | temporary (type : ValueType) :
      ledger.Advances { (ledger.append
          { name := "t" ++ Text.ofNat ledger.temporaries, type, temporary := true }).2 with
        temporaries := ledger.temporaries + 1 }
  | slot (missing : ledger.slot = none) :
      ledger.Advances { (ledger.append
          { name := "0return", type := .untyped, temporary := true }).2 with
        slot := some (ledger.symbols.length : Nat) }

theorem Advances.refl (ledger : Ledger) : ledger.Advances ledger :=
  .scopes ledger.stack fun _ member => .inl member

variable {symbol : LedgerSymbol}

/-- A declaration fails without an effect, or it adds a symbol and binds its name. -/
theorem advances_of_declare {depth : Nat} (named : symbol.temporary = false)
    (made : ledger.declare depth symbol = some (answer, next)) : ledger.Advances next := by
  simp only [declare, Option.bind_eq_bind, Option.bind_eq_some_iff] at made
  obtain ⟨frame, -, settled⟩ := made
  split at settled
  · cases settled
    exact .refl ledger
  · cases settled
    exact .declared depth symbol named

theorem advances_of_serve (served : ledger.serve request = some (answer, next)) :
    ledger.Advances next := by
  cases request with
  | push name =>
    cases served
    refine .scopes _ fun frame member => ?_
    obtain rfl | old := mem_cons.mp member
    · exact .inr fun _ => rfl
    · exact .inl old
  | pop =>
    rw [serve] at served
    split at served
    · next top outer rest stack =>
      cases served
      refine .scopes _ fun frame member => .inl ?_
      rw [stack]
      exact mem_cons_of_mem top member
    · cases served
      exact .refl ledger
  | declareVariable | declareFunction => exact advances_of_declare rfl served
  | addParameter function name type =>
    rw [serve] at served
    split at served
    · exact advances_of_declare rfl served
    · cases served
  | newTemporary type =>
    cases served
    exact .temporary type
  | returnSlot =>
    rw [serve] at served
    split at served
    · cases served
      exact .refl ledger
    · next missing =>
      cases served
      exact .slot missing
  | resolve name =>
    rw [serve] at served
    split at served
    · cases served
      exact .refl ledger
    · obtain ⟨frame, -, same⟩ := Option.bind_eq_some_iff.mp served
      cases same
      exact .refl ledger

theorem Advances.symbols (advances : ledger.Advances next) : ledger.symbols <+: next.symbols := by
  cases advances with
  | scopes => exact prefix_refl _
  | declared | temporary | slot => exact prefix_append _ _

variable {handle : Handle}

theorem symbol?_of_prefix (grown : ledger.symbols <+: next.symbols)
    (found : ledger.symbol? handle = some symbol) : next.symbol? handle = some symbol := by
  cases handle with
  | negSucc index => cases found
  | ofNat index => exact getElem?_of_prefix grown found

/-- Scopes bind symbols by their names, and temporaries are not among them but have names of their own. -/
structure Tidy (ledger : Ledger) : Prop where
  bound : ∀ frame ∈ ledger.stack, ∀ name handle, frame.names name = some handle →
    ∃ symbol, ledger.symbol? handle = some symbol ∧ symbol.name = name ∧ symbol.temporary = false
  numbered : ∀ symbol ∈ ledger.symbols, symbol.temporary →
    (symbol.name = "0return" ∧ ledger.slot.isSome) ∨
      ∃ number < ledger.temporaries, symbol.name = "t" ++ Text.ofNat number
  distinct : ((ledger.symbols.filter LedgerSymbol.temporary).map LedgerSymbol.name).Nodup

theorem tidy_empty : empty.Tidy where
  bound := by simp [empty]
  numbered := by simp [empty]
  distinct := by simp [empty]

theorem slot_ne_temporary (number : Nat) : ("0return" : Text) ≠ "t" ++ Text.ofNat number := by
  intro same
  have head : (some 0x30 : Option UInt8) = some 0x74 := congrArg head? same
  exact absurd head (by decide)

/-- What scopes bind stays known while symbols are added. -/
theorem Tidy.bound_grown (tidy : ledger.Tidy) (grown : ledger.symbols <+: next.symbols) :
    ∀ frame ∈ ledger.stack, ∀ name handle, frame.names name = some handle →
      ∃ symbol, next.symbol? handle = some symbol ∧ symbol.name = name ∧
        symbol.temporary = false := by
  intro frame member name handle found
  obtain ⟨known, looked, fits⟩ := tidy.bound frame member name handle found
  exact ⟨known, symbol?_of_prefix grown looked, fits⟩

/-- What scopes bind they still bind, unless one was opened. -/
theorem Tidy.bound_scopes (tidy : ledger.Tidy) {stack : List LedgerFrame}
    (known : ∀ frame ∈ stack, frame ∈ ledger.stack ∨ ∀ name, frame.names name = none) :
    Tidy { ledger with stack } :=
  { tidy with
    bound := fun frame member name handle found => by
      obtain old | none_ := known frame member
      · exact tidy.bound frame old name handle found
      · rw [none_] at found
        cases found }

theorem Tidy.declared (tidy : ledger.Tidy) (depth : Nat) {symbol : LedgerSymbol}
    (named : symbol.temporary = false) : (ledger.declared depth symbol).Tidy where
  bound frame member name handle found := by
    obtain ⟨index, at_⟩ := mem_iff_getElem?.mp member
    simp only [Ledger.declared, getElem?_modify] at at_
    obtain ⟨before, was, rfl⟩ := Option.map_eq_some_iff.mp at_
    have old : before ∈ ledger.stack := mem_of_getElem? was
    split at found
    · simp only [LedgerFrame.define] at found
      split at found
      · next isName =>
        cases found
        refine ⟨symbol, ?_, isName.symm, named⟩
        exact getElem?_concat_length
      · exact tidy.bound_grown (prefix_append _ _) before old name handle found
    · exact tidy.bound_grown (prefix_append _ _) before old name handle found
  numbered other member temporary := by
    obtain old | new := mem_append.mp member
    · exact tidy.numbered other old temporary
    · rw [mem_singleton.mp new, named] at temporary
      cases temporary
  distinct := by
    simpa [Ledger.declared, append, filter_append, named] using tidy.distinct

theorem Tidy.distinct_append (tidy : ledger.Tidy)
    (fresh : ∀ other ∈ ledger.symbols, other.temporary → other.name ≠ symbol.name) :
    (((ledger.symbols ++ [symbol]).filter LedgerSymbol.temporary).map LedgerSymbol.name).Nodup := by
  rw [filter_append, map_append, nodup_append]
  refine ⟨tidy.distinct, ?_, ?_⟩
  · cases temporary : symbol.temporary <;> simp [temporary]
  · intro name old other new
    obtain ⟨earlier, member, rfl⟩ := mem_map.mp old
    obtain ⟨inside, temporary⟩ := mem_filter.mp member
    obtain ⟨later, member, rfl⟩ := mem_map.mp new
    obtain rfl := mem_singleton.mp (mem_filter.mp member).1
    exact fresh earlier inside temporary

theorem Advances.tidy (advances : ledger.Advances next) (tidy : ledger.Tidy) : next.Tidy := by
  cases advances with
  | scopes stack known => exact tidy.bound_scopes known
  | declared depth symbol named => exact tidy.declared depth named
  | temporary type =>
    refine ⟨tidy.bound_grown (prefix_append _ _), ?_, tidy.distinct_append ?_⟩
    · intro symbol member temporary
      obtain old | new := mem_append.mp member
      · obtain slot | ⟨number, below, name⟩ := tidy.numbered symbol old temporary
        · exact .inl slot
        · exact .inr ⟨number, Nat.lt_succ_of_lt below, name⟩
      · cases mem_singleton.mp new
        exact .inr ⟨ledger.temporaries, Nat.lt_succ_self _, rfl⟩
    · intro other member temporary same
      obtain ⟨name, -⟩ | ⟨number, below, name⟩ := tidy.numbered other member temporary
      · exact slot_ne_temporary _ (name.symm.trans same)
      · have equal := Text.ofNat_injective (append_cancel_left (name.symm.trans same))
        omega
  | slot missing =>
    refine ⟨tidy.bound_grown (prefix_append _ _), ?_, tidy.distinct_append ?_⟩
    · intro symbol member temporary
      obtain old | new := mem_append.mp member
      · obtain ⟨name, -⟩ | number := tidy.numbered symbol old temporary
        · exact .inl ⟨name, rfl⟩
        · exact .inr number
      · cases mem_singleton.mp new
        exact .inl ⟨rfl, rfl⟩
    · intro other member temporary same
      obtain ⟨-, made⟩ | ⟨number, below, name⟩ := tidy.numbered other member temporary
      · rw [missing] at made
        cases made
      · exact slot_ne_temporary _ (same.symm.trans name)

theorem Tidy.find? (tidy : ledger.Tidy) {name : Text} (found : ledger.find? name = some handle) :
    ∃ symbol, ledger.symbol? handle = some symbol ∧ symbol.name = name ∧
      symbol.temporary = false := by
  obtain ⟨frame, member, bound⟩ := exists_of_findSome?_eq_some found
  exact tidy.bound frame member name handle bound

end Ledger

namespace SymbolTable

/-- What was asked for, or the table as it was with what went wrong. -/
def settle (table : SymbolTable) :
    Except Diagnostic (Handle × SymbolTable) → SymbolAnswer × SymbolTable
  | .ok (handle, after) => (.ok (some handle), after)
  | .error error => (.error (.diagnostic error), table)

/-- Serves a request. None is the answer where a parameter is not for a function. -/
def serve (table : SymbolTable) : SymbolRequest → Option (SymbolAnswer × SymbolTable)
  | .push name => some (.ok none, table.push name)
  | .pop =>
    match table.pop with
    | .ok (_, after) => some (.ok none, after)
    | .error cause => some (.error (.fault cause), table)
  | .declareVariable name type => some (table.settle (table.declareVariable name type))
  | .declareFunction name returns => some (table.settle (table.declareFunction name returns))
  | .addParameter function name type =>
    if (table.function? function).isSome then
      some (table.settle (table.addParameter function name type))
    else none
  | .newTemporary type => some ((table.newTemporary type).map (fun handle => .ok (some handle)) id)
  | .returnSlot => some (table.getReturnSlot.map (fun handle => .ok (some handle)) id)
  | .resolve name =>
    match table.resolve name with
    | .ok handle => some (.ok (some handle), table)
    | .error error => some (.error (.diagnostic error), table)

end SymbolTable

end ThreeAddress

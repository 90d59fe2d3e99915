import ThreeAddress.Proofs.Code.Supply
import ThreeAddress.Proofs.Source.Typing

/-!
The operands of generated code.

Operands are variables and constants of the tables, and they stay in them as the tables grow.
Both operands of an operation have one type, and its value goes to a temporary of the type of the operation.
-/

namespace ThreeAddress

/-- The type that the tables give a value. -/
inductive Value.HasType (environment : Environment) : Value → ValueType → Prop where
  | symbol {handle : Handle} {entry : VariableEntry}
    (found : environment.symbols.lookup? handle = some (.var entry)) :
    HasType environment (.symbol handle) entry.type
  | constant {handle : Handle} {constant : Constant}
    (found : environment.constants.lookup? handle = some constant) :
    HasType environment (.constant handle) constant.type

/-- A variable or a constant of the tables. -/
def Value.Known (environment : Environment) (value : Value) : Prop :=
  ∃ type, value.HasType environment type

variable {environment : Environment}

theorem Value.HasType.ofSymbol {handle : Handle} {entry : VariableEntry} {type : ValueType}
    (found : environment.symbols.lookup? handle = some (.var entry)) (same : entry.type = type)
    : (Value.symbol handle).HasType environment type :=
  same ▸ .symbol found

/-- A value has at most one type. -/
theorem Value.HasType.unique {value : Value} {first second : ValueType}
    (one : value.HasType environment first) (two : value.HasType environment second) :
    first = second := by
  cases one with
  | symbol found =>
    cases two with
    | symbol again =>
      cases found.symm.trans again
      rfl
  | constant found =>
    cases two with
    | constant again =>
      cases found.symm.trans again
      rfl

/-- An instruction whose operands are in the tables, and of the right types if it is an operation. -/
def Instruction.Sound (environment : Environment) : Instruction → Prop
  | .binary operation result left right => ∃ operand type,
      left.HasType environment operand ∧ right.HasType environment operand ∧
        operation.Operates operand type ∧ (Value.symbol result).HasType environment type
  | .move target source => (Value.symbol target).Known environment ∧ source.Known environment
  | .ifFalse condition _ => condition.Known environment
  | _ => True

namespace Supply

variable {before after : Supply} {constants : ConstantTable}

/-- The tables while code is made. Constants are all there before. -/
abbrev tables (supply : Supply) (constants : ConstantTable) : Environment :=
  { symbols := supply.symbols, constants }

/-- Parameters of functions and the slot for results are variables. -/
structure Ready (supply : Supply) : Prop where
  params : ∀ handle function, supply.symbols.lookup? handle = some (.func function) →
    ∀ param ∈ function.params, ∃ entry, supply.symbols.lookup? param = some (.var entry)
  slot : ∀ handle, supply.symbols.returnSlot = some handle →
    ∃ entry, supply.symbols.lookup? handle = some (.var entry)

variable {value : Value}

theorem Grown.hasType (grown : before.Grown after) {type : ValueType}
    (typed : value.HasType (before.tables constants) type) :
    value.HasType (after.tables constants) type := by
  cases typed with
  | symbol found => exact .symbol (grown.lookup? found)
  | constant found => exact .constant found

theorem Grown.known (grown : before.Grown after) (known : value.Known (before.tables constants))
    : value.Known (after.tables constants) := by
  obtain ⟨type, typed⟩ := known
  exact ⟨type, grown.hasType typed⟩

theorem Grown.sound (grown : before.Grown after) {instruction : Instruction}
    (sound : instruction.Sound (before.tables constants)) :
    instruction.Sound (after.tables constants) := by
  cases instruction with
  | binary operation result left right =>
    obtain ⟨operand, type, ofLeft, ofRight, operates, ofResult⟩ := sound
    exact ⟨operand, type, grown.hasType ofLeft, grown.hasType ofRight, operates,
      grown.hasType ofResult⟩
  | move target source => exact ⟨grown.known sound.1, grown.known sound.2⟩
  | ifFalse condition place => exact grown.known sound
  | goto | label | call | ret => trivial

theorem Ready.append (ready : before.Ready) {entry : VariableEntry}
    (same : after.symbols.entries = before.symbols.entries ++ [.var entry])
    (slot : after.symbols.returnSlot = before.symbols.returnSlot ∨
      after.symbols.returnSlot = some (before.symbols.size : Nat)) : after.Ready := by
  have kept {handle : Handle} (known : ∃ held, before.symbols.lookup? handle = some (.var held)) :
      ∃ held, after.symbols.lookup? handle = some (.var held) := by
    obtain ⟨held, found⟩ := known
    exact ⟨held, SymbolTable.lookup?_of_prefix (same ▸ List.prefix_append _ _) found⟩
  constructor
  · intro handle function found param member
    rw [SymbolTable.lookup?_append same] at found
    split at found
    · cases found
    · exact kept (ready.params handle function found param member)
  · intro handle found
    obtain old | new := slot
    · exact kept (ready.slot handle (old ▸ found))
    · cases new.symm.trans found
      exact ⟨entry, by rw [SymbolTable.lookup?_append same, if_pos rfl]⟩

theorem newTemporary_hasType (supply : Supply) (constants : ConstantTable) (type : ValueType) :
    (Value.symbol (supply.symbols.size : Nat)).HasType
      (tables { supply with symbols := (supply.symbols.newTemporary type).2 } constants) type :=
  .ofSymbol (supply.symbols.lookup?_newTemporary type) rfl

theorem Ready.label (ready : before.Ready) (next : Nat) :
    Ready { before with nextLabel := next } :=
  ⟨ready.params, ready.slot⟩

end Supply

namespace Generate

variable {constants : ConstantTable} {before middle after : Supply}

/-- Sound code, and what was drawn for it: labels, and a temporary for each operation. -/
structure Settles (constants : ConstantTable) (before : Supply) (code : Code) (after : Supply) :
    Prop where
  grown : before.Grown after
  ready : after.Ready
  sound : ∀ instruction ∈ code, instruction.Sound (after.tables constants)
  drawn : after.symbols.drawn = before.symbols.drawn ++ code.results

variable {code : Code}

/-- Code without operations for which only labels were drawn. -/
theorem Settles.labelled {next : Nat} (ready : before.Ready) (labels : before.nextLabel ≤ next)
    (sound : ∀ instruction ∈ code, instruction.Sound (before.tables constants))
    (still : code.results = []) : Settles constants before code { before with nextLabel := next } :=
  ⟨.ofLabel labels, ready.label next, sound, by simp [still]⟩

theorem Settles.nil (ready : before.Ready) : Settles constants before [] before :=
  .labelled ready (Nat.le_refl _) (by simp) rfl

theorem Settles.append {first second : Code} (one : Settles constants before first middle)
    (two : Settles constants middle second after) :
    Settles constants before (first ++ second) after where
  grown := one.grown.trans two.grown
  ready := two.ready
  sound instruction member := by
    obtain inFirst | inSecond := List.mem_append.mp member
    · exact two.grown.sound (one.sound instruction inFirst)
    · exact two.sound instruction inSecond
  drawn := by rw [two.drawn, one.drawn, Code.results_append, List.append_assoc]

theorem Settles.with (settles : Settles constants before code after) (more : Code)
    (sound : ∀ instruction ∈ more, instruction.Sound (after.tables constants))
    (still : more.results = []) : Settles constants before (code ++ more) after :=
  settles.append (.labelled settles.ready (Nat.le_refl _) sound still)

/-- A value with the type that the tables give it. -/
def ValueFits (constants : ConstantTable) (supply : Supply) (typed : Typed) : Prop :=
  typed.value.HasType (supply.tables constants) typed.type

/-- Asking for the variable for results gives a variable that stays the same from then on. -/
theorem accepts_returnSlot (constants : ConstantTable) (ready : before.Ready) :
    Accepts returnSlot before True fun slot after => before.Grown after ∧ after.Ready ∧
      after.nextLabel = before.nextLabel ∧ after.symbols.returnSlot = some slot ∧
      (Value.symbol slot).Known (after.tables constants) ∧
      after.symbols.drawn = before.symbols.drawn := by
  have kept := Supply.getReturnSlot_kept before.symbols
  have isReady : Supply.Ready { before with symbols := before.symbols.getReturnSlot.2 } := by
    cases slot : before.symbols.returnSlot with
    | some handle =>
      simp only [SymbolTable.getReturnSlot, slot]
      exact ready
    | none =>
      simp only [SymbolTable.getReturnSlot, slot]
      exact ready.append rfl (.inr rfl)
  obtain ⟨entry, found⟩ := isReady.slot _ kept
  exact ⟨.ofSlot before, isReady, rfl, kept, ⟨entry.type, .symbol found⟩,
    before.symbols.drawn_getReturnSlot⟩

theorem bindParameters_results : ∀ (params : List Handle) (values : List (Option Value)),
    (bindParameters params values).results = []
  | param :: params, some _ :: values => bindParameters_results params values
  | [], _ => by simp [bindParameters, Code.results]
  | _ :: _, [] => rfl
  | _ :: _, none :: _ => rfl

theorem bindParameters_sound {environment : Environment} : ∀ {params : List Handle}
    {values : List (Option Value)}, (∀ param ∈ params, (Value.symbol param).Known environment) →
      (∀ value, some value ∈ values → value.Known environment) →
      ∀ instruction ∈ bindParameters params values, instruction.Sound environment
  | param :: params, some value :: values, knownParams, knownValues => by
    have onward := @bindParameters_sound environment params values
      (List.forall_mem_cons.mp knownParams).2
      (fun other member => knownValues other (List.mem_cons_of_mem _ member))
    intro instruction member
    obtain rfl | later := List.mem_cons.mp member
    · exact ⟨knownParams param List.mem_cons_self, knownValues value List.mem_cons_self⟩
    · exact onward instruction later
  | [], _, _, _ => by simp [bindParameters]
  | _ :: _, [], _, _ => by simp [bindParameters]
  | _ :: _, none :: _, _, _ => by simp [bindParameters]

end Generate

end ThreeAddress

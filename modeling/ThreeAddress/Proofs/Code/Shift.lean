import ThreeAddress.Proofs.Code.Supply
import ThreeAddress.Proofs.Language.Shift
import ThreeAddress.Proofs.Source.Naming

/-!
Code generation with entries in front of the symbol table.

Two runs go side by side, of which one has more entries in front.
They draw the same labels and make their temporaries at the same moments, so that every handle is moved by the same number.
-/

namespace ThreeAddress

open ThreeAddress.Language List

/-- A value once some entries stand in front. Constants have a table of their own. -/
def Value.shift (count : Nat) : Value → Value
  | symbol handle => symbol (handle + count)
  | constant handle => constant handle

/-- An instruction once some entries stand in front. -/
def Instruction.shift (count : Nat) : Instruction → Instruction
  | binary operation result left right =>
    binary operation (result + count) (left.shift count) (right.shift count)
  | move target source => move (target + count) (source.shift count)
  | goto place => goto place
  | ifFalse condition place => ifFalse (condition.shift count) place
  | label place => label place
  | call place => call place
  | ret => ret

/-- Code once some entries stand in front. -/
abbrev Code.shift (count : Nat) (code : Code) : Code := code.map (Instruction.shift count)

/-- A value with its type once some entries stand in front. -/
def Typed.shift (count : Nat) (typed : Typed) : Typed :=
  { typed with value := typed.value.shift count }

/-- What is known of an expression once some entries stand in front. -/
def Partial.shift (count : Nat) : Partial → Partial
  | start => start
  | value left => value (left.shift count)
  | pending left operation => pending (left.shift count) operation

/-- A tree whose names refer to the moved handles. -/
abbrev SyntaxTree.shift (count : Nat) (tree : SyntaxTree) : SyntaxTree :=
  Tree.map (Label.map (Token.shift count)) tree

/-- What the code of a statement depends on once some entries stand in front. -/
def Context.shift (count : Nat) (context : Context) : Context :=
  { context with
    entries := context.entries.map fun (handle, label) => (handle + (count : Int), label)
    function := context.function.map (FunctionEntry.shift count) }

theorem Context.entry?_shift (count : Nat) (context : Context) (function : Handle) :
    Context.entry? (context.shift count) (function + count) = context.entry? function := by
  simp only [Context.entry?, shift, ← map_reverse]
  induction context.entries.reverse with
  | nil => rfl
  | cons entry rest ih =>
    obtain ⟨handle, label⟩ := entry
    -- Two handles are the same exactly if the moved ones are.
    have same : (function + (count : Int) == handle + (count : Int)) = (function == handle) := by
      rw [Bool.eq_iff_iff, beq_iff_eq, beq_iff_eq, Int.add_left_inj]
    simp only [map_cons, lookup_cons, same]
    cases function == handle with
    | true => rfl
    | false => exact ih

@[simp]
theorem Label.text_shift (count : Nat) (label : Label) :
    (label.map (Token.shift count)).text = label.text := by
  obtain ⟨symbol, token⟩ := label
  cases token with
  | none => rfl
  | some token =>
    have valid : (token.shift count).handle.isValid = token.handle.isValid := by
      rw [Token.shift]
      split
      · exact Handle.isValid_shift count token.handle
      · rfl
    simp only [text, map, Option.map_some, valid, (Token.shift_keeps count).lexeme]

/-- What stands in the place of an entry once some temporaries stand in front: temporaries go on with their numbers. -/
inductive Entry.Counterpart (count : Nat) : Entry → Entry → Prop where
  | temporary (number : Nat) (type : ValueType) :
    Counterpart count (.temporary number type) (.temporary (number + count) type)
  | other {entry : Entry} (lasting : entry.isTemporary = false) :
    Counterpart count entry (entry.shift count)

variable {count : Nat} {other : Entry}

theorem Entry.Counterpart.of_temporary {number : Nat} {type : ValueType}
    (counterpart : (Entry.temporary number type).Counterpart count other) :
    other = .temporary (number + count) type := by
  generalize same : Entry.temporary number type = entry at counterpart
  cases counterpart with
  | temporary found foundType =>
    obtain ⟨rfl, rfl⟩ := Entry.temporary_inj same
    rfl
  | other lasting =>
    subst same
    cases lasting

theorem Entry.Counterpart.of_lasting {entry : Entry} (counterpart : entry.Counterpart count other)
    (lasting : entry.isTemporary = false) : other = entry.shift count := by
  cases counterpart with
  | temporary number type => cases lasting
  | other _ => rfl

/-- Two supplies that are behind the same steps, one of them with more entries in front. -/
structure Supply.Shifts (count : Nat) (base : SymbolTable) (supply twin : Supply) : Prop where
  labels : twin.nextLabel = supply.nextLabel
  /-- Generation only appends to what was declared. -/
  declared : ∀ {handle entry}, base.lookup? handle = some entry →
    supply.symbols.lookup? handle = some entry ∧ entry.isTemporary = false
  size : twin.symbols.size = supply.symbols.size + count
  counterparts : List.Forall₂ (Entry.Counterpart count) supply.symbols.entries
    (twin.symbols.entries.drop count)
  temporaries : twin.symbols.temporaries = supply.symbols.temporaries + count
  drawn : ∃ types, types.length = supply.symbols.temporaries ∧
    supply.symbols.entries.filter Entry.isTemporary = reservedEntries types
  slot : twin.symbols.returnSlot = supply.symbols.returnSlot.map (· + (count : Int))

namespace Supply

variable {count : Nat} {base : SymbolTable} {supply twin : Supply}

theorem shifts_start (sound : base.Sound) (front : List Entry) :
    Shifts front.length base { symbols := base } { symbols := base.shift front } := by
  -- Reading a program makes no temporaries, so every entry is its own counterpart.
  have lasting : ∀ entry ∈ base.entries, entry.isTemporary = false := by
    intro entry member
    cases entry with
    | var held => simp [Entry.isTemporary, sound.lasting held member]
    | func function => rfl
  refine ⟨rfl, fun known => ⟨known, lasting _ (SymbolTable.mem_of_lookup? known)⟩,
    base.size_shift front, ?_, rfl, ?_, rfl⟩
  · show List.Forall₂ _ base.entries
      ((front ++ base.entries.map (Entry.shift front.length)).drop front.length)
    rw [drop_left, forall₂_map_right_iff, forall₂_same]
    exact fun entry member => .other (lasting entry member)
  · refine ⟨[], sound.numbered.symm, ?_⟩
    exact filter_eq_nil_iff.mpr fun entry member => by simp [lasting entry member]

section

variable (shifts : supply.Shifts count base twin)
include shifts

variable {entry : Entry}

theorem Shifts.append {other : Entry} (counterpart : entry.Counterpart count other)
    {table after : SymbolTable} (made : table.entries = supply.symbols.entries ++ [entry])
    (madeOther : after.entries = twin.symbols.entries ++ [other])
    (temporaries : after.temporaries = table.temporaries + count)
    (drawn : ∃ types, types.length = table.temporaries ∧
      table.entries.filter Entry.isTemporary = reservedEntries types)
    (slot : after.returnSlot = table.returnSlot.map (· + (count : Int))) :
    Shifts count base { supply with symbols := table } { twin with symbols := after } where
  labels := shifts.labels
  declared known := by
    obtain ⟨found, lasting⟩ := shifts.declared known
    exact ⟨SymbolTable.lookup?_of_prefix (made ▸ prefix_append _ _) found, lasting⟩
  size := by
    have sizes : twin.symbols.entries.length = _ := shifts.size
    simp only [SymbolTable.size, made, madeOther, length_append, length_singleton] at *
    omega
  counterparts := by
    have sizes : twin.symbols.entries.length = _ := shifts.size
    rw [made, madeOther, drop_append_of_le_length (by omega)]
    exact rel_append shifts.counterparts (.cons counterpart .nil)
  temporaries := temporaries
  drawn := drawn
  slot := slot

theorem Shifts.size_eq :
    (twin.symbols.size : Int) = (supply.symbols.size : Int) + (count : Int) := by
  rw [shifts.size, Int.natCast_add]

theorem Shifts.newTemporary (type : ValueType) :
    Shifts count base { supply with symbols := (supply.symbols.newTemporary type).2 }
      { twin with symbols := (twin.symbols.newTemporary type).2 } := by
  refine shifts.append (.temporary supply.symbols.temporaries type) rfl ?_ ?_ ?_ shifts.slot
  · rw [← shifts.temporaries]
    rfl
  · show twin.symbols.temporaries + 1 = supply.symbols.temporaries + 1 + count
    rw [shifts.temporaries]
    omega
  · -- The number is the next one, and no such name is that of the variable for results.
    obtain ⟨types, number, filtered⟩ := shifts.drawn
    refine ⟨types ++ [type], ?_, ?_⟩
    · rw [length_append, number]
      rfl
    · rw [reservedEntries_concat, number, ← filtered]
      exact filter_append _ _

theorem Shifts.returnSlot :
    Shifts count base { supply with symbols := supply.symbols.getReturnSlot.2 }
        { twin with symbols := twin.symbols.getReturnSlot.2 } ∧
      twin.symbols.getReturnSlot.1 = supply.symbols.getReturnSlot.1 + (count : Int) := by
  have slot := shifts.slot
  -- The variable is there in both runs or in neither, as they made it at the same moment.
  cases found : supply.symbols.returnSlot with
  | some handle =>
    rw [found] at slot
    simp only [SymbolTable.getReturnSlot, found, slot, Option.map_some, and_true]
    exact shifts
  | none =>
    rw [found] at slot
    simp only [SymbolTable.getReturnSlot, found, slot, Option.map_none]
    refine ⟨shifts.append (.other rfl) rfl rfl shifts.temporaries ?_ ?_, shifts.size_eq⟩
    · obtain ⟨types, number, filtered⟩ := shifts.drawn
      refine ⟨types, number, ?_⟩
      show (supply.symbols.entries ++ [_]).filter Entry.isTemporary = _
      rw [filter_append, filter_cons_of_neg (by decide), filter_nil, append_nil, filtered]
    · exact congrArg some shifts.size_eq

variable {handle : Handle}

theorem Shifts.counterpart (found : supply.symbols.lookup? handle = some entry) :
    ∃ other, twin.symbols.lookup? (handle + (count : Int)) = some other ∧
      entry.Counterpart count other := by
  have valid : 0 ≤ handle := SymbolTable.Has.nonneg (Option.isSome_of_mem found)
  obtain ⟨index, rfl⟩ := Int.eq_ofNat_of_zero_le valid
  obtain ⟨below, rfl⟩ := List.getElem?_eq_some_iff.mp found
  obtain ⟨sizes, related⟩ := forall₂_iff_get.mp shifts.counterparts
  have inside : index < (twin.symbols.entries.drop count).length := by omega
  refine ⟨_, ?_, related index below inside⟩
  rw [← Int.natCast_add]
  show twin.symbols.entries[index + count]? = _
  rw [Nat.add_comm, ← getElem?_drop, getElem?_eq_getElem inside]
  rfl

theorem Shifts.lookup? (known : base.lookup? handle = some entry) :
    supply.symbols.lookup? handle = some entry ∧
      twin.symbols.lookup? (handle + (count : Int)) = some (entry.shift count) := by
  obtain ⟨found, lasting⟩ := shifts.declared known
  obtain ⟨other, there, counterpart⟩ := shifts.counterpart found
  exact ⟨found, counterpart.of_lasting lasting ▸ there⟩

theorem Shifts.checkCall {function : FunctionEntry}
    (params : ∀ param ∈ function.params, base.Has param) (args : List Argument) :
    twin.symbols.checkCall (function.shift count) args =
      supply.symbols.checkCall function args := by
  have types : (function.shift count).params.map twin.symbols.typeOf =
      function.params.map supply.symbols.typeOf := by
    simp only [FunctionEntry.shift, map_map]
    refine map_congr_left fun param member => ?_
    obtain ⟨entry, known⟩ := Option.isSome_iff_exists.mp (params param member)
    obtain ⟨here, there⟩ := shifts.lookup? known
    simp only [Function.comp, SymbolTable.typeOf, here, there, Option.elim_some, Entry.type_shift]
  simp only [SymbolTable.checkCall, types]
  rfl

end

end Supply

namespace Generate

section Mirrors

variable (count : Nat) (base : SymbolTable) {α β γ δ : Type}

/-- A step of one run that does what another step does in the run with entries in front. -/
def Mirrors (of : α → β) (step : Generate α) (other : Generate β) : Prop :=
  ∀ supply twin, Supply.Shifts count base supply twin →
    Supply.Shifts count base (step.run supply).2 (other.run twin).2 ∧
      (other.run twin).1 = (step.run supply).1.map of

variable {count base} {of : α → β} {onto : γ → δ}

theorem mirrors_pure {value : α} {other : β} (same : other = of value) :
    Mirrors count base of (pure value) (pure other) := by
  subst same
  exact fun _ _ shifts => ⟨shifts, rfl⟩

theorem mirrors_throw (failure : Failure) :
    Mirrors count base of (throw failure) (throw failure) :=
  fun _ _ shifts => ⟨shifts, rfl⟩

/-- Steps in a row go side by side if each of them does. -/
theorem Mirrors.bind {first : Generate α} {other : Generate β} {next : α → Generate γ}
    {further : β → Generate δ} (one : Mirrors count base of first other)
    (two : ∀ value, Mirrors count base onto (next value) (further (of value))) :
    Mirrors count base onto (first >>= next) (other >>= further) := by
  intro supply twin shifts
  obtain ⟨kept, same⟩ := one supply twin shifts
  rw [Steps.run_bind, Steps.run_bind]
  cases here : first.run supply with
  | mk result after =>
    cases there : other.run twin with
    | mk answer behind =>
      rw [here, there] at kept same
      -- Both runs go on, or both have failed.
      cases result with
      | ok value =>
        cases same
        exact two value after behind kept
      | error failure =>
        cases same
        exact ⟨kept, rfl⟩

theorem mirrors_ite {choice : Prop} [Decidable choice] {yes no : Generate α}
    {otherYes otherNo : Generate β} (one : choice → Mirrors count base of yes otherYes)
    (two : ¬choice → Mirrors count base of no otherNo) :
    Mirrors count base of (if choice then yes else no) (if choice then otherYes else otherNo) := by
  split
  · next holds => exact one holds
  · next fails => exact two fails

theorem mirrors_get {next : Supply → Generate γ} {further : Supply → Generate δ}
    (two : ∀ supply twin, Supply.Shifts count base supply twin →
      Mirrors count base onto (next supply) (further twin)) :
    Mirrors count base onto (get >>= next) (get >>= further) :=
  fun supply twin shifts => two supply twin shifts supply twin shifts

theorem mirrors_lookup? {handle : Handle} (has : base.Has handle)
    {next : Option Entry → Generate γ} {further : Option Entry → Generate δ}
    (two : ∀ entry, base.lookup? handle = some entry →
      Mirrors count base onto (next (some entry)) (further (some (entry.shift count)))) :
    Mirrors count base onto (lookup? handle >>= next)
      (lookup? (handle + (count : Int)) >>= further) := by
  intro supply twin shifts
  obtain ⟨entry, known⟩ := Option.isSome_iff_exists.mp has
  obtain ⟨here, there⟩ := shifts.lookup? known
  have found : (lookup? handle).run supply = (.ok (some entry), supply) := by
    rw [← here]
    rfl
  have foundOther : (lookup? (handle + (count : Int))).run twin =
      (.ok (some (entry.shift count)), twin) := by
    rw [← there]
    rfl
  rw [Steps.run_bind, Steps.run_bind, found, foundOther]
  exact two entry known supply twin shifts

theorem mirrors_child {tree : SyntaxTree} {index : Nat} {next : SyntaxTree → Generate γ}
    {further : SyntaxTree → Generate δ}
    (two : ∀ child : SyntaxTree, tree.children[index]? = some child →
      Mirrors count base onto (next child) (further (child.shift count))) :
    Mirrors count base onto (child tree index >>= next)
      (child (tree.shift count) index >>= further) := by
  simp only [child, Tree.children_map, getElem?_map, Tree.id_map]
  cases found : tree.children[index]? with
  | none => exact mirrors_throw _
  | some child => exact two child found

theorem mirrors_newLabels (number : Nat) :
    Mirrors count base id (newLabels number) (newLabels number) := by
  intro supply twin shifts
  have labels := shifts.labels
  exact ⟨{ shifts with labels := congrArg (· + number) labels }, congrArg Except.ok labels⟩

theorem mirrors_newLabel : Mirrors count base id newLabel newLabel := mirrors_newLabels 1

theorem mirrors_newTemporary (type : ValueType) :
    Mirrors count base (· + (count : Int)) (newTemporary type) (newTemporary type) :=
  fun _ _ shifts => ⟨shifts.newTemporary type, congrArg Except.ok shifts.size_eq⟩

theorem mirrors_returnSlot :
    Mirrors count base (· + (count : Int)) returnSlot returnSlot :=
  fun _ _ shifts => ⟨shifts.returnSlot.1, congrArg Except.ok shifts.returnSlot.2⟩

end Mirrors

variable {count : Nat} {base : SymbolTable} {constants : ConstantTable} {tree : SyntaxTree}

/-- A name refers to something, and in the other run to the same under its moved handle. -/
theorem handle_of_name (named : Names base.Has tree)
    (isName : tree.value.symbol.category? = some identifier) (count : Nat) :
    base.Has tree.value.handle ∧
      (tree.value.map (Token.shift count)).handle = tree.value.handle + (count : Int) := by
  obtain ⟨token, found, category, has⟩ := named.handle isName
  simp only [Label.handle, Label.map, found, Option.map_some, Option.elim_some]
  refine ⟨has, ?_⟩
  rw [Token.shift, if_pos category]
  exact Handle.shift_of_valid count has.nonneg

/-! Expressions. -/

theorem leaf_mirrors (named : Names base.Has tree) :
    Mirrors count base (Typed.shift count) (leaf constants tree.value)
      (leaf constants (tree.value.map (Token.shift count))) := by
  have text := tree.value.text_shift count
  have handles := handle_of_name named
  have token := named.token
  generalize tree.value = label at *
  obtain ⟨symbol, token?⟩ := label
  simp only [leaf, text]
  cases symbol with
  | nonterminal name => exact mirrors_throw _
  | terminal name category =>
    cases token? with
    | none => exact mirrors_throw _
    | some held =>
      -- The token of a leaf has the category of its symbol, so names are told by either.
      obtain rfl : held.category = category := Option.some.inj token
      simp only [Label.map, Option.map_some]
      split
      · next isName =>
        obtain ⟨has, moved⟩ := handles (congrArg some isName) count
        rw [show (held.shift count).handle = held.handle + (count : Int) from moved]
        refine mirrors_lookup? has fun entry known => ?_
        cases entry with
        | var entry => exact mirrors_pure rfl
        | func entry => exact mirrors_throw _
      · next notName =>
        -- The token of a constant stays as it is.
        rw [Token.shift, if_neg notName]
        split
        · split
          · exact mirrors_pure rfl
          · exact mirrors_throw _
        · exact mirrors_throw _

theorem combine_mirrors (operation : BinaryOperation) (left right : Typed) :
    Mirrors count base (Prod.map (Code.shift count) (Typed.shift count))
      (combine operation left right)
      (combine operation (left.shift count) (right.shift count)) := by
  simp only [combine, Typed.shift]
  split
  · exact mirrors_throw _
  · exact (mirrors_newTemporary _).bind fun handle => mirrors_pure rfl

theorem takeOperator_mirrors (soFar : Partial) (operation : BinaryOperation) (symbol : Symbol) :
    Mirrors count base (Partial.shift count) (takeOperator soFar operation symbol)
      (takeOperator (soFar.shift count) operation symbol) := by
  cases soFar with
  | value left => exact mirrors_pure rfl
  | start => exact mirrors_throw _
  | pending left waiting => exact mirrors_throw _

theorem takeOperand_mirrors (soFar : Partial) (right : Typed) (label : Label) :
    Mirrors count base (Prod.map (Code.shift count) (Partial.shift count))
      (takeOperand soFar right label)
      (takeOperand (soFar.shift count) (right.shift count) (label.map (Token.shift count))) := by
  cases soFar with
  | start => exact mirrors_pure rfl
  | value left =>
    simp only [takeOperand, Partial.shift, Label.text_shift]
    exact mirrors_throw _
  | pending left operation =>
    exact (combine_mirrors operation left right).bind fun joined => mirrors_pure rfl

theorem operands_mirrors {trees : List SyntaxTree} (each : ∀ tree ∈ trees,
      Mirrors count base (Prod.map (Code.shift count) (Typed.shift count))
        (expression constants tree) (expression constants (SyntaxTree.shift count tree))) :
    ∀ soFar : Partial, Mirrors count base (Prod.map (Code.shift count) (Partial.shift count))
        (operands constants soFar trees)
        (operands constants (soFar.shift count) (trees.map (SyntaxTree.shift count))) := by
  induction trees with
  | nil => exact fun soFar => mirrors_pure rfl
  | cons tree rest ih =>
    have onward := ih (forall_mem_cons.mp each).2
    intro soFar
    simp only [map_cons, operands, Tree.value_map, Label.symbol_map]
    -- Operators are told by their symbols, which are the same on both sides.
    cases tree.value.symbol.category?.bind BinaryOperation.ofCategory? with
    | some operation => exact (takeOperator_mirrors soFar _ _).bind onward
    | none =>
      refine (each tree mem_cons_self).bind fun operand => ?_
      refine (takeOperand_mirrors soFar operand.2 tree.value).bind fun joined => ?_
      refine (onward joined.2).bind fun others => mirrors_pure ?_
      simp

theorem expression_mirrors (named : tree.Every (Names base.Has)) :
    Mirrors count base (Prod.map (Code.shift count) (Typed.shift count))
      (expression constants tree) (expression constants (SyntaxTree.shift count tree)) := by
  induction tree using Tree.induct with
  | node id label children ih =>
    obtain ⟨here, below⟩ := Tree.every_node.mp named
    rw [SyntaxTree.shift, Tree.map_node]
    cases children with
    | nil => exact (leaf_mirrors here).bind fun result => mirrors_pure rfl
    | cons first rest =>
      refine (operands_mirrors (fun child member => ih child member (below child member))
        .start).bind fun result => ?_
      obtain ⟨code, soFar⟩ := result
      cases soFar with
      | value result => exact mirrors_pure rfl
      | start | pending =>
        simp only [Prod.map, Partial.shift, Label.text_shift]
        exact mirrors_throw _

theorem condition_mirrors (named : tree.Every (Names base.Has)) (what : Text) :
    Mirrors count base (Prod.map (Code.shift count) (Value.shift count))
      (condition constants what tree)
      (condition constants what (SyntaxTree.shift count tree)) := by
  refine (expression_mirrors named).bind fun result => ?_
  exact mirrors_ite (fun _ => mirrors_pure rfl) fun _ => mirrors_throw _

end Generate

end ThreeAddress

import ThreeAddress.Proofs.Code.Layout
import ThreeAddress.Proofs.Source.Scoping

/-!
What code generation draws, and what its steps accept.

Generation only adds to the tables, so what is known of a supply holds of every later one.
Facts about code are therefore stated of the last supply, in which the variable for results is settled.
A step in the middle needs no more than what the whole needs, so a part that fails makes the whole fail.
-/

namespace ThreeAddress

open List

/-- What a supply becomes: entries are added, and the variable for results stays once it is made. -/
structure Supply.Grown (before after : Supply) : Prop where
  entries : before.symbols.entries <+: after.symbols.entries
  kept : ∀ handle, before.symbols.returnSlot = some handle → after.symbols.returnSlot = some handle
  made : ∀ handle, after.symbols.returnSlot = some handle →
    before.symbols.returnSlot = some handle ∨
      (before.symbols.size : Int) ≤ handle ∧ handle < (after.symbols.size : Int)
  labels : before.nextLabel ≤ after.nextLabel

/-- A temporary: a variable made by code generation that is not the one for results. -/
def SymbolTable.Scratch (table : SymbolTable) (handle : Handle) : Prop :=
  ∃ entry, table.lookup? handle = some (.var entry) ∧ entry.temporary = true ∧
    table.returnSlot ≠ some handle

@[simp]
theorem SymbolTable.size_newTemporary (table : SymbolTable) (type : ValueType) :
    (table.newTemporary type).2.size = table.size + 1 := by
  simp [newTemporary, append, size]

theorem SymbolTable.lookup?_newTemporary (table : SymbolTable) (type : ValueType) :
    (table.newTemporary type).2.lookup? (table.size : Nat) =
      some (.var { name := "t" ++ Text.ofNat table.temporaries, type, temporary := true }) := by
  rw [lookup?_append rfl, if_pos rfl]

namespace SymbolTable

/-- Whether a handle is that of a temporary. -/
def isScratch (table : SymbolTable) (handle : Handle) : Bool :=
  match table.lookup? handle with
  | some (.var entry) => entry.temporary && table.returnSlot != some handle
  | _ => false

/-- The temporaries of a table in the order in which they were made. -/
def drawn (table : SymbolTable) : List Handle :=
  ((List.range table.size).map Int.ofNat).filter table.isScratch

variable {before after : SymbolTable} {entry : Entry} {table : SymbolTable} {handle : Handle}

theorem isScratch_iff : table.isScratch handle = true ↔ table.Scratch handle := by
  rw [isScratch, Scratch]
  cases table.lookup? handle with
  | none => simp
  | some entry => cases entry <;> simp

theorem mem_drawn : handle ∈ table.drawn ↔ table.Scratch handle := by
  rw [drawn, mem_filter, isScratch_iff, and_iff_right_iff_imp]
  rintro ⟨entry, found, -⟩
  cases handle with
  | negSucc => cases found
  | ofNat index =>
    exact List.mem_map_of_mem (List.mem_range.mpr (List.getElem?_eq_some_iff.mp found).1)

theorem drawn_nodup (table : SymbolTable) : table.drawn.Nodup :=
  (nodup_range.map fun _ _ => Int.ofNat.inj).filter _

theorem Sound.drawn_eq_nil (sound : table.Sound) : table.drawn = [] := by
  refine eq_nil_iff_forall_not_mem.mpr fun handle member => ?_
  obtain ⟨entry, found, temporary, -⟩ := mem_drawn.mp member
  cases handle with
  | negSucc => cases found
  | ofNat index => simp [sound.lasting entry (mem_of_getElem? found)] at temporary

/-- One more entry is one more temporary or none, if the others stay what they are. -/
theorem drawn_append (same : after.entries = before.entries ++ [entry])
    (slot : ∀ index < before.size,
      after.returnSlot = some (index : Nat) ↔ before.returnSlot = some (index : Nat)) :
    after.drawn = before.drawn ++ [Int.ofNat before.size].filter after.isScratch := by
  have more : after.size = before.size + 1 := by simp [size, same]
  rw [drawn, more, range_succ, map_append, filter_append]
  refine congrArg (· ++ _) (filter_congr fun handle member => ?_)
  obtain ⟨index, inside, rfl⟩ := mem_map.mp member
  have below := mem_range.mp inside
  have old : (index : Int) ≠ (before.size : Nat) := by omega
  have slotless : (after.returnSlot != some (Int.ofNat index)) =
      (before.returnSlot != some (Int.ofNat index)) := by
    rw [Bool.eq_iff_iff, bne_iff_ne, bne_iff_ne]
    exact not_congr (slot index below)
  simp only [isScratch, lookup?_append same, Int.ofNat_eq_natCast, if_neg old] at slotless ⊢
  rw [slotless]

theorem drawn_newTemporary (type : ValueType) (apart : table.returnSlot ≠ some (table.size : Nat)) :
    (table.newTemporary type).2.drawn = table.drawn ++ [(table.size : Int)] := by
  have isNew : (table.newTemporary type).2.isScratch (table.size : Nat) = true :=
    isScratch_iff.mpr ⟨_, table.lookup?_newTemporary type, rfl, apart⟩
  have grown : (table.newTemporary type).2.drawn = table.drawn ++
      [Int.ofNat table.size].filter (table.newTemporary type).2.isScratch :=
    drawn_append rfl fun _ _ => Iff.rfl
  simpa [isNew] using grown

theorem drawn_getReturnSlot (table : SymbolTable) : table.getReturnSlot.2.drawn = table.drawn := by
  cases slot : table.returnSlot with
  | some handle => simp [getReturnSlot, slot]
  | none =>
    have isSlot : table.getReturnSlot.2.returnSlot = some (table.size : Nat) := by
      simp [getReturnSlot, slot, append]
    have none : table.getReturnSlot.2.isScratch (table.size : Nat) = false := by
      refine Bool.eq_false_iff.mpr fun scratch => ?_
      obtain ⟨_, _, _, other⟩ := isScratch_iff.mp scratch
      exact other isSlot
    have same : table.getReturnSlot.2.entries =
        table.entries ++ [.var { name := "0return", type := .untyped, temporary := true }] := by
      simp [getReturnSlot, slot, append]
    have grown := drawn_append same fun index below => by
      rw [isSlot, slot]
      refine ⟨fun same => ?_, fun same => by cases same⟩
      have equal : (table.size : Int) = index := Option.some.inj same
      omega
    simpa [none] using grown

end SymbolTable

namespace Supply

variable {before middle after : Supply}

theorem Grown.size (grown : before.Grown after) : before.symbols.size ≤ after.symbols.size :=
  grown.entries.length_le

theorem Grown.refl (supply : Supply) : supply.Grown supply where
  entries := prefix_refl _
  kept _ found := found
  made _ found := .inl found
  labels := Nat.le_refl _

theorem Grown.trans (first : before.Grown middle) (second : middle.Grown after) :
    before.Grown after where
  entries := first.entries.trans second.entries
  kept handle found := second.kept handle (first.kept handle found)
  made handle found := by
    have below := Int.ofNat_le.mpr first.size
    have above := Int.ofNat_le.mpr second.size
    rcases second.made handle found with known | bounds
    · rcases first.made handle known with old | bounds
      · exact .inl old
      · exact .inr ⟨bounds.1, Int.lt_of_lt_of_le bounds.2 above⟩
    · exact .inr ⟨Int.le_trans below bounds.1, bounds.2⟩
  labels := Nat.le_trans first.labels second.labels

theorem Grown.ofLabel {next : Nat} (labels : before.nextLabel ≤ next) :
    before.Grown { before with nextLabel := next } where
  entries := prefix_refl _
  kept _ found := found
  made _ found := .inl found
  labels := labels

theorem Grown.ofTemporary (supply : Supply) (type : ValueType) :
    supply.Grown { supply with symbols := (supply.symbols.newTemporary type).2 } where
  entries := prefix_append _ _
  kept _ found := found
  made _ found := .inl found
  labels := Nat.le_refl _

theorem Grown.ofSlot (supply : Supply) :
    supply.Grown { supply with symbols := supply.symbols.getReturnSlot.2 } := by
  cases found : supply.symbols.returnSlot with
  | some handle =>
    simp only [SymbolTable.getReturnSlot, found]
    exact .refl supply
  | none =>
    simp only [SymbolTable.getReturnSlot, found]
    exact {
      entries := prefix_append _ _
      kept := fun handle known => by simp [found] at known
      made := fun handle known => by
        right
        simp only [SymbolTable.append, Option.some.injEq] at known
        subst known
        refine ⟨Int.le_refl _, Int.ofNat_lt.mpr ?_⟩
        simp [SymbolTable.append, SymbolTable.size]
      labels := Nat.le_refl _ }

theorem getReturnSlot_kept (symbols : SymbolTable) :
    symbols.getReturnSlot.2.returnSlot = some symbols.getReturnSlot.1 := by
  cases found : symbols.returnSlot with
  | some handle => simp [SymbolTable.getReturnSlot, found]
  | none => simp [SymbolTable.getReturnSlot, found, SymbolTable.append]

theorem Grown.lookup? (grown : before.Grown after) {handle : Handle} {entry : Entry}
    (found : before.symbols.lookup? handle = some entry) :
    after.symbols.lookup? handle = some entry :=
  SymbolTable.lookup?_of_prefix grown.entries found

/-- A new temporary is never the variable for results. -/
theorem scratch_of_newTemporary {base supply last : Supply} {type : ValueType}
    (slotless : base.symbols.returnSlot = none) (grown : base.Grown supply)
    (later : Grown { supply with symbols := (supply.symbols.newTemporary type).2 } last) :
    last.symbols.Scratch (supply.symbols.size : Nat) := by
  refine ⟨_, later.lookup? (supply.symbols.lookup?_newTemporary type), rfl, ?_⟩
  intro found
  -- A variable for results made later is above the temporary, and one made before is below.
  rcases later.made _ found with known | ⟨above, -⟩
  · rcases grown.made _ known with old | ⟨-, below⟩
    · simp [slotless] at old
    · exact Int.lt_irrefl _ below
  · have counted := Int.ofNat_le.mp above
    rw [SymbolTable.size_newTemporary] at counted
    omega

end Supply

/-- Code that holds as many labels as were given to it and drawn for it. -/
def Supply.Places (before : Supply) (given : Nat) (code : Code) (after : Supply) : Prop :=
  after.nextLabel + given = before.nextLabel + code.labels.length

namespace Supply.Places

variable {before middle after : Supply} {given more : Nat} {first second : Code}

theorem quiet (same : after.nextLabel = before.nextLabel) (free : first.labels = []) :
    before.Places 0 first after := by
  rw [Places, same, free]
  rfl

theorem append (one : before.Places given first middle) (two : middle.Places more second after) :
    before.Places (given + more) (first ++ second) after := by
  simp only [Places, Code.labels_append, length_append] at *
  omega

end Supply.Places

/-- The errors of programs that are not well typed. -/
def Diagnostic.IsTyping : Diagnostic → Prop
  | .semanticType .. => True
  | .parameterMismatch .. => True
  | _ => False

namespace Generate

variable {α β : Type} {before : Supply}

/-- A step that ends well if something holds, and may end with an error of types otherwise. -/
def Accepts (step : Generate α) (before : Supply) (typed : Prop) (good : α → Supply → Prop) : Prop :=
  match step.run before with
  | (.ok value, after) => good value after
  | (.error failure, _) => ¬ typed ∧ ∃ error, failure = .diagnostic error ∧ error.IsTyping

variable {good : α → Supply → Prop} {typed : Prop}

theorem accepts_pure {value : α} (fits : good value before) :
    Accepts (pure value) before typed good := fits

theorem accepts_report {error : Diagnostic} (fails : ¬ typed) (isTyping : error.IsTyping) :
    Accepts (report error) before typed good :=
  ⟨fails, error, rfl, isTyping⟩

variable {needed : Prop}

theorem Accepts.bind {first : Generate α} {next : α → Generate β} {middle : α → Supply → Prop}
    {good : β → Supply → Prop} (accepts : Accepts first before needed middle)
    (needs : typed → needed)
    (continues : ∀ value supply, middle value supply → Accepts (next value) supply typed good) :
    Accepts (first >>= next) before typed good := by
  simp only [Accepts, Steps.run_bind] at *
  cases ran : first.run before with
  | mk result after =>
    rw [ran] at accepts
    cases result with
    | ok value => exact continues value after accepts
    | error failure => exact ⟨mt needs accepts.1, accepts.2⟩

/-- What a step needs and gives may be said less exactly. -/
theorem Accepts.mono {step : Generate α} {weaker : α → Supply → Prop}
    (accepts : Accepts step before needed good) (needs : typed → needed)
    (implies : ∀ value supply, good value supply → weaker value supply) :
    Accepts step before typed weaker := by
  simp only [Accepts] at *
  split at accepts
  · exact implies _ _ accepts
  · exact ⟨mt needs accepts.1, accepts.2⟩

theorem Accepts.ensures {step : Generate α} (accepts : Accepts step before typed good) :
    Steps.Ensures step before good := by
  intro value after ran
  rw [Accepts, ran] at accepts
  exact accepts

/-! Steps that never fail hand on what they read or draw. -/

theorem accepts_child {tree child : SyntaxTree} {index : Nat} {next : SyntaxTree → Generate α}
    (found : tree.children[index]? = some child) (continues : Accepts (next child) before typed good) :
    Accepts (Generate.child tree index >>= next) before typed good := by
  rw [Generate.child, found]
  exact continues

theorem accepts_get {next : Supply → Generate α} (continues : Accepts (next before) before typed good) :
    Accepts (get >>= next) before typed good := continues

theorem accepts_lookup? {handle : Handle} {next : Option Entry → Generate α}
    (continues : Accepts (next (before.symbols.lookup? handle)) before typed good) :
    Accepts (lookup? handle >>= next) before typed good := continues

theorem accepts_newTemporary {type : ValueType} {next : Handle → Generate α}
    (continues : Accepts (next (before.symbols.size : Nat))
      { before with symbols := (before.symbols.newTemporary type).2 } typed good) :
    Accepts (newTemporary type >>= next) before typed good := continues

theorem accepts_newLabels {count : Nat} {next : Nat → Generate α}
    (continues : Accepts (next before.nextLabel)
      { before with nextLabel := before.nextLabel + count } typed good) :
    Accepts (newLabels count >>= next) before typed good := continues

theorem accepts_newLabel {next : Nat → Generate α}
    (continues : Accepts (next before.nextLabel)
      { before with nextLabel := before.nextLabel + 1 } typed good) :
    Accepts (newLabel >>= next) before typed good := continues

end Generate

end ThreeAddress

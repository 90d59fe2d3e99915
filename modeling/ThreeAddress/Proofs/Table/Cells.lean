import ThreeAddress.Proofs.Grammar.Index
import ThreeAddress.Proofs.Matrix.Cells
import ThreeAddress.Table.Basic
import Mathlib.Algebra.Group.Int.Defs

/-!
How a parsing table is filled in.

Entering a production changes one cell, so a row is what its last entries say: FIRST over FOLLOW.
The stored cells stay in order, and an entry that meets another production is noted as a conflict.
-/

namespace ThreeAddress

open List

namespace Table

/-- All categories are small enough for the number of columns to fit its word. -/
def Fits (grammar : Grammar) (registry : Registry) : Prop :=
  ∀ entry ∈ registry.entries ++ grammar.terminals, entry.1 < 2 ^ 63 - 3

/-- The production that a row holds for a lookahead. -/
def cell? (table : Table) (row : Int) (lookahead : Category) : Option Production := do
  let column ← column? table.matrix lookahead
  let serial ← Matrix.stored? table.matrix.cells row column
  table.grammar.production? serial

/-- A table for a grammar that may still be filled in: its names give the rows, and there is the given number of columns. -/
structure Framed (grammar : Grammar) (registry : Registry) (columns : Int) (table : Table) :
    Prop where
  grammar_eq : table.grammar = grammar
  registry_eq : table.registry = registry
  names_eq : table.names = grammar.nonterminals
  rows_eq : table.matrix.rows = grammar.nonterminals.length
  columns_eq : table.matrix.columns = columns
  null_eq : table.matrix.null = Matrix.defaultNull

/-- The conflict of entering a production where another one is. -/
def clash? (table : Table) (row : Int) (name : Text) (lookahead : Category)
    (production : Production) : Option Conflict :=
  (table.cell? row lookahead).bind fun discarded =>
    if discarded = production then none else some ⟨name, lookahead, discarded, production⟩

/-- A table whose cells are in order, each inside the matrix and with a production of the grammar. -/
structure Ordered (table : Table) : Prop where
  sorted : table.matrix.cells.Pairwise Cell.Before
  inside : ∀ cell ∈ table.matrix.cells, table.matrix.contains cell.row cell.column = true
  listed : ∀ cell ∈ table.matrix.cells, (table.grammar.production? cell.value).isSome = true

/-- A table of a grammar that is in order, and so may still be filled in. -/
structure Fillable (grammar : Grammar) (registry : Registry) (columns : Int) (table : Table) :
    Prop extends Framed grammar registry columns table, table.Ordered

/-- Entering the productions that are chosen for lookaheads of a row, one after the other. -/
def enterAll (table : Table) (row : Int) (name : Text) (choice : Int → Option Production)
    (lookaheads : List Int) : Except Fault Table :=
  lookaheads.foldlM (fun table lookahead =>
    match choice lookahead with
    | none => pure table
    | some production => table.enter row name lookahead production) table

/-- The conflicts of a run of entries, as the table before them tells. -/
def clashes (table : Table) (row : Int) (name : Text) (choice : Int → Option Production)
    (lookaheads : List Int) : List Conflict :=
  lookaheads.filterMap fun lookahead =>
    (choice lookahead).bind (table.clash? row name lookahead)

variable {grammar : Grammar} {registry : Registry} {columns : Int} {production : Production} {row : Int}

theorem production?_serial (wellFormed : grammar.WellFormed)
    (member : production ∈ grammar.productions) :
    grammar.production? production.serial = some production := by
  obtain ⟨index, found⟩ := mem_iff_getElem?.mp member
  rw [wellFormed.numbered index production found]
  exact found

/-- The columns begin with the end of input, two below the first category. -/
theorem column?_eq (matrix : Matrix) (lookahead : Int) :
    column? matrix lookahead =
      if -2 ≤ lookahead ∧ lookahead + 2 < matrix.columns then some (lookahead + 2) else none := by
  have shifted : lookahead - Category.endOfInput = lookahead + 2 := by
    simp [Category.endOfInput]
  simp only [column?, shifted]
  by_cases inside : -2 ≤ lookahead ∧ lookahead + 2 < matrix.columns
  · have outside : ¬ (lookahead + 2 < 0 ∨ matrix.columns ≤ lookahead + 2) := by omega
    simp [inside, outside]
  · have outside : lookahead + 2 < 0 ∨ matrix.columns ≤ lookahead + 2 := by omega
    simp [inside, outside]

theorem serial_eq_iff (wellFormed : grammar.WellFormed) {old : Int} {found : Production}
    (held : grammar.production? old = some found) (member : production ∈ grammar.productions) :
    old = production.serial ↔ found = production := by
  constructor
  · rintro rfl
    exact Option.some.inj (held.symm.trans (production?_serial wellFormed member))
  · rintro rfl
    cases old with
    | ofNat index => exact congrArg Int.ofNat (wellFormed.numbered index found held).symm
    | negSucc index => cases held

/-- Entering a production changes one cell of a table in order, and notes a conflict if the cell held another one. -/
theorem enter_ok (wellFormed : grammar.WellFormed) {table : Table}
    (fillable : Fillable grammar registry columns table)
    (lower : 0 ≤ row) (upper : row < grammar.nonterminals.length) (name : Text)
    {lookahead : Int} (inRange : -2 ≤ lookahead ∧ lookahead + 2 < columns)
    (member : production ∈ grammar.productions) :
    ∃ entered, table.enter row name lookahead production = .ok entered ∧
      Fillable grammar registry columns entered ∧
      (∀ other category, entered.cell? other category =
        if other = row ∧ category = lookahead then some production
        else table.cell? other category) ∧
      entered.conflicts = table.conflicts ++ (table.clash? row name lookahead production).toList := by
  obtain ⟨⟨rfl, rfl, named, rows, rfl, null⟩, ordered⟩ := fillable
  have contained : table.matrix.contains row (lookahead + 2) = true := by
    simp only [Matrix.contains, rows, Bool.and_eq_true, decide_eq_true_eq]
    omega
  have notNull : ¬ (production.serial : Int) = Matrix.defaultNull := by
    have : Matrix.defaultNull = -2147483648 := rfl
    omega
  let old := Matrix.stored? table.matrix.cells row (lookahead + 2)
  let matrix := { table.matrix with
    cells := Matrix.store Matrix.defaultNull table.matrix.cells
      ⟨row, lookahead + 2, production.serial⟩ }
  have stored : table.matrix.set row (lookahead + 2) production.serial =
      .ok (old.getD table.matrix.null, matrix) := by
    simp [Matrix.set, contained, null, old, matrix]
  -- Whether or not there is a conflict, the cells are those of the matrix with one cell stored.
  have cells : ∀ (conflicts : List Conflict) (other : Int) (category : Int),
      cell? { table with matrix, conflicts } other category =
      if other = row ∧ category = lookahead then some production
      else table.cell? other category := by
    intro conflicts other category
    simp only [cell?, column?_eq, matrix, Matrix.stored?_store ordered.sorted, if_neg notNull]
    by_cases same : other = row ∧ category = lookahead
    · obtain ⟨rfl, rfl⟩ := same
      simp [inRange, production?_serial wellFormed member]
    · simp only [if_neg same]
      split
      · simp [same]
      · rfl
  have kept : ∀ conflicts : List Conflict, Fillable table.grammar table.registry
      table.matrix.columns { table with matrix, conflicts } := by
    refine fun _ => ⟨⟨rfl, rfl, named, rows, rfl, null⟩, Matrix.store_sorted ordered.sorted _ _,
      fun cell found => ?_, fun cell found => ?_⟩
    · rcases (Matrix.mem_store ordered.sorted).mp found with ⟨rfl, -⟩ | ⟨before, -⟩
      · exact contained
      · exact ordered.inside cell before
    · rcases (Matrix.mem_store ordered.sorted).mp found with ⟨rfl, -⟩ | ⟨before, -⟩
      · simp [production?_serial wellFormed member]
      · exact ordered.listed cell before
  -- What the cell held is what the matrix says of the old value.
  have held : table.cell? row lookahead = table.grammar.production? (old.getD table.matrix.null) := by
    simp only [cell?, column?_eq, if_pos inRange, old, null, bind, Option.bind]
    cases Matrix.stored? table.matrix.cells row (lookahead + 2) with
    | none => rfl
    | some value => rfl
  simp only [enter, column?_eq, if_pos inRange, stored, bind, Except.bind, pure, Except.pure, clash?,
    held]
  split
  · rename_i discarded found
    simp only [found, serial_eq_iff wellFormed found member, Option.bind_some]
    split
    · exact ⟨_, rfl, kept _, cells _, by simp⟩
    · exact ⟨_, rfl, kept _, cells _, rfl⟩
  · rename_i absent
    exact ⟨_, rfl, kept _, cells _, by simp [absent]⟩

/-- Entering chosen productions for distinct lookaheads of a row changes just those cells, and each entry meets what the row held before all of them. -/
theorem enterAll_ok (wellFormed : grammar.WellFormed) (lower : 0 ≤ row)
    (upper : row < grammar.nonterminals.length) (name : Text)
    (choice : Int → Option Production)
    (listed : ∀ category production, choice category = some production →
      production ∈ grammar.productions) {lookaheads : List Int} (distinct : lookaheads.Nodup) :
    ∀ table, Fillable grammar registry columns table →
      (∀ lookahead ∈ lookaheads, -2 ≤ lookahead ∧ lookahead + 2 < columns) →
      ∃ entered, table.enterAll row name choice lookaheads = .ok entered ∧
        Fillable grammar registry columns entered ∧
        (∀ other category, entered.cell? other category =
          if other = row ∧ category ∈ lookaheads then
            (choice category).or (table.cell? other category)
          else table.cell? other category) ∧
        entered.conflicts = table.conflicts ++ table.clashes row name choice lookaheads := by
  induction lookaheads with
  | nil => exact fun table fillable _ => ⟨table, rfl, fillable, by simp, by simp [clashes]⟩
  | cons lookahead rest ih =>
    intro table fillable inRange
    obtain ⟨fresh, distinct⟩ := nodup_cons.mp distinct
    have others := (forall_mem_cons.mp inRange).2
    cases chosen : choice lookahead with
    | none =>
      obtain ⟨entered, done, fillable, cells, noted⟩ := ih distinct table fillable others
      refine ⟨entered, by simpa [enterAll, chosen] using done, fillable, ?_,
        by simpa [clashes, chosen] using noted⟩
      intro other category
      rw [cells]
      by_cases here : category = lookahead
      · subst here
        simp [chosen]
      · simp [here]
    | some production =>
      obtain ⟨first, entering, fillable, held, met⟩ := enter_ok wellFormed fillable lower upper name
        (inRange lookahead (by simp)) (listed lookahead production chosen)
      obtain ⟨entered, done, fillable, cells, noted⟩ := ih distinct first fillable others
      refine ⟨entered, ?_, fillable, ?_, ?_⟩
      · simpa [enterAll, chosen, entering, bind, Except.bind] using done
      · intro other category
        rw [cells, held]
        by_cases here : category = lookahead
        · subst here
          by_cases same : other = row
          · simp [same, chosen]
          · simp [same]
        · simp [here]
      · -- The entries behind this one are at other lookaheads, where the row is as it was.
        have same : first.clashes row name choice rest = table.clashes row name choice rest := by
          refine filterMap_congr fun category found => ?_
          have apart : category ≠ lookahead := fun is => fresh (is ▸ found)
          have met : first.clash? row name category = table.clash? row name category := by
            funext other
            simp [clash?, held, apart]
          rw [met]
        rw [noted, same, met, append_assoc]
        cases clash : table.clash? row name lookahead production with
        | none => simp [clashes, chosen, clash]
        | some conflict => simp [clashes, chosen, clash]

end Table

namespace Analysis

/-- The production that FIRST or else FOLLOW chooses for a non-terminal and a lookahead. -/
def predicted? (analysis : Analysis) (name : Text) (lookahead : Category) : Option Production :=
  if lookahead ∈ (analysis.first.get name).proper then analysis.firstProduction? name lookahead
  else if lookahead ∈ analysis.follow.get name then analysis.epsilonProduction? name
  else none

/-- The conflict of a non-terminal at a lookahead: FOLLOW lets it vanish, and FIRST chooses another production. -/
def conflict? (analysis : Analysis) (name : Text) (lookahead : Category) : Option Conflict :=
  if lookahead ∈ analysis.follow.get name then do
    let discarded ← analysis.epsilonProduction? name
    let kept ← analysis.firstProduction? name lookahead
    if discarded = kept then none else some ⟨name, lookahead, discarded, kept⟩
  else none

/-- The conflicts of a row, by lookahead. -/
def rowConflicts (analysis : Analysis) (name : Text) : List Conflict :=
  (analysis.first.get name).proper.filterMap (analysis.conflict? name)

variable {grammar : Grammar} {name : Text} {production : Production}

section

variable (wellFormed : grammar.WellFormed)
include wellFormed

variable {category : Category}

theorem predicted?_member {lookahead : Category}
    (found : (ofGrammar grammar).predicted? name lookahead = some production) :
    production ∈ grammar.productions ∧ production.lhs = name := by
  unfold predicted? at found
  split at found
  · obtain ⟨member, owner, -⟩ := ((firstProduction?_iff wellFormed).mp found).2.listed
    exact ⟨member, owner⟩
  · split at found
    · obtain ⟨member, owner, -⟩ := ((epsilonProduction?_iff wellFormed).mp found).listed
      exact ⟨member, owner⟩
    · simp at found

theorem firstProduction?_isSome (proper : category ≠ Category.epsilon)
    (member : category ∈ grammar.first.get name) :
    ((ofGrammar grammar).firstProduction? name category).isSome = true := by
  obtain ⟨production, listed, same, begins⟩ :=
    ((Grammar.mem_first wellFormed proper).mp member).production
  have proper := begins.nonneg wellFormed (wellFormed.unreserved_body listed)
  obtain ⟨last, isLast⟩ := Grammar.exists_lastWith listed
    (fun listed => grammar.Leads listed.body category) (.inr ⟨proper, Grammar.runBegins_iff.mp begins⟩)
  exact Option.isSome_iff_exists.mpr ⟨last, (firstProduction?_iff wellFormed).mpr
    ⟨proper, same ▸ isLast⟩⟩

end

end Analysis

namespace Table

variable {grammar : Grammar} {registry : Registry}

/-- Folding with the maximum never falls below the start or an item, and stays below their bounds. -/
theorem foldl_max_bounds (items : List Int) : ∀ start : Int,
    (start ≤ items.foldl max start ∧ ∀ item ∈ items, item ≤ items.foldl max start) ∧
    ∀ bound, start < bound → (∀ item ∈ items, item < bound) → items.foldl max start < bound := by
  induction items with
  | nil => exact fun start => ⟨⟨Int.le_refl start, by simp⟩, fun _ below _ => below⟩
  | cons head rest ih =>
    intro start
    obtain ⟨⟨above, others⟩, below⟩ := ih (max start head)
    simp only [foldl_cons, mem_cons, forall_eq_or_imp]
    refine ⟨⟨by omega, by omega, others⟩, ?_⟩
    intro bound first ⟨second, all⟩
    exact below bound (by omega) all

theorem le_greatestCategory {entry : Category × Text}
    (member : entry ∈ registry.entries ++ grammar.terminals) :
    entry.1 ≤ greatestCategory grammar registry :=
  (foldl_max_bounds _ 0).1.2 entry.1 (mem_map.mpr ⟨entry, member, rfl⟩)

/-- With categories that fit there is a column for each of them, the end of input and the empty text. -/
theorem columnCount_eq (fits : Fits grammar registry) :
    columnCount (greatestCategory grammar registry) = greatestCategory grammar registry + 3 ∧
      0 ≤ greatestCategory grammar registry := by
  have lower := (foldl_max_bounds ((registry.entries ++ grammar.terminals).map Prod.fst) 0).1.1
  have upper := (foldl_max_bounds ((registry.entries ++ grammar.terminals).map Prod.fst) 0).2
    (2 ^ 63 - 3) (by decide) (by
      intro category member
      obtain ⟨entry, inside, rfl⟩ := mem_map.mp member
      exact fits entry inside)
  refine ⟨?_, lower⟩
  unfold columnCount greatestCategory
  generalize ((registry.entries ++ grammar.terminals).map Prod.fst).foldl max 0 = greatest at *
  have shifted : greatest - Category.endOfInput + 1 = greatest + 3 := by
    simp only [Category.endOfInput, Category]
    omega
  rw [shifted, Int.bmod_eq_of_le (by omega) (by omega)]

/-- Every category of a FIRST or FOLLOW set other than the empty text has a column. -/
theorem inRange_of_member (fits : Fits grammar registry) {lookahead : Int}
    (member : lookahead ∈ grammar.memberCategories)
    (unreserved : 0 ≤ lookahead ∨ lookahead = Category.endOfInput) :
    -2 ≤ lookahead ∧ lookahead + 2 < columnCount (greatestCategory grammar registry) := by
  obtain ⟨count, lower⟩ := columnCount_eq fits
  rw [count]
  simp only [Grammar.memberCategories, mem_cons, mem_map] at member
  simp only [Category.endOfInput, Category.epsilon, Category] at *
  rcases member with rfl | rfl | ⟨entry, used, rfl⟩
  · omega
  · omega
  · have bound := le_greatestCategory (mem_append_right registry.entries used)
    simp only [Category] at bound
    omega

variable {name : Text} {lookahead : Category}

variable {table : Table} {row : Int}

theorem clashes_blank (blank : ∀ lookahead, table.cell? row lookahead = none) (name : Text)
    (choice : Int → Option Production) (lookaheads : List Int) :
    table.clashes row name choice lookaheads = [] := by
  simp [clashes, clash?, blank]

/-- A row is filled in by two runs of entries: one production for all of FOLLOW, then FIRST over it. -/
theorem enterRow_eq (analysis : Analysis) (table : Table) (row : Int) (name : Text) :
    enterRow analysis table row name =
      table.enterAll row name (fun _ => analysis.epsilonProduction? name)
        (analysis.follow.get name) >>= fun vanishing =>
      vanishing.enterAll row name (analysis.firstProduction? name)
        (analysis.first.get name).proper := by
  unfold enterRow
  cases analysis.epsilonProduction? name with
  | none =>
    have still : table.enterAll row name (fun _ => none) (analysis.follow.get name) = pure table := by
      simp [enterAll]
    exact (congrArg (· >>= _) still).symm
  | some production => rfl

theorem predicted?_unknown (wellFormed : grammar.WellFormed) (unknown : name ∉ grammar.nonterminals)
    (lookahead : Category) : (Analysis.ofGrammar grammar).predicted? name lookahead = none := by
  cases found : (Analysis.ofGrammar grammar).predicted? name lookahead with
  | none => rfl
  | some production =>
    obtain ⟨member, same⟩ := Analysis.predicted?_member wellFormed found
    refine absurd ?_ unknown
    rw [← same]
    exact wellFormed.mem_nonterminals.mpr (Grammar.isNonterminal_lhs member)

/-- The table of a grammar, which holds what FIRST and FOLLOW predict and tells the conflicts. -/
structure Filled (grammar : Grammar) (registry : Registry) (table : Table) : Prop extends
    Framed grammar registry (columnCount (greatestCategory grammar registry)) table,
    table.Ordered where
  predicted : ∀ name lookahead, table.production? name lookahead =
    (Analysis.ofGrammar grammar).predicted? name lookahead
  noted : table.conflicts = grammar.nonterminals.flatMap (Analysis.ofGrammar grammar).rowConflicts

variable (wellFormed : grammar.WellFormed) (fits : Fits grammar registry)
include wellFormed fits

theorem inRange_of_follow
    (member : lookahead ∈ (Analysis.ofGrammar grammar).follow.get name) :
    -2 ≤ lookahead ∧ lookahead + 2 < columnCount (greatestCategory grammar registry) := by
  have follows := (Grammar.mem_follow wellFormed).mp member
  exact inRange_of_member fits (CategorySets.get_within (Grammar.follow_invariant wellFormed).within
    member) (follows.unreserved wellFormed)

theorem inRange_of_first
    (member : lookahead ∈ ((Analysis.ofGrammar grammar).first.get name).proper) :
    -2 ≤ lookahead ∧ lookahead + 2 < columnCount (greatestCategory grammar registry) := by
  obtain ⟨member, proper⟩ := CategorySet.mem_proper.mp member
  have begins := (Grammar.mem_first wellFormed proper).mp member
  exact inRange_of_member fits (CategorySets.get_within (Grammar.first_invariant wellFormed).within
    member) (.inl (begins.nonneg wellFormed (by simp)))

/-- Filling in a row gives each of its empty cells the predicted production, and notes the conflicts of the row. -/
theorem enterRow_ok
    (fillable : Fillable grammar registry (columnCount (greatestCategory grammar registry)) table)
    (lower : 0 ≤ row) (upper : row < grammar.nonterminals.length) (name : Text)
    (blank : ∀ lookahead, table.cell? row lookahead = none) :
    ∃ entered, enterRow (Analysis.ofGrammar grammar) table row name = .ok entered ∧
      Fillable grammar registry (columnCount (greatestCategory grammar registry)) entered ∧
      (∀ other lookahead, entered.cell? other lookahead =
        if other = row then (Analysis.ofGrammar grammar).predicted? name lookahead
        else table.cell? other lookahead) ∧
      entered.conflicts = table.conflicts ++ (Analysis.ofGrammar grammar).rowConflicts name := by
  have follows : ((Analysis.ofGrammar grammar).follow.get name).Nodup :=
    (CategorySets.get_ascending (Grammar.follow_invariant wellFormed).within name).imp Int.ne_of_lt
  have begins : ((Analysis.ofGrammar grammar).first.get name).proper.Nodup :=
    ((CategorySets.get_ascending (Grammar.first_invariant wellFormed).within name).imp
      Int.ne_of_lt).filter _
  obtain ⟨vanishing, entering, fillable, cells, same⟩ := enterAll_ok wellFormed lower upper name
    (fun _ => (Analysis.ofGrammar grammar).epsilonProduction? name)
    (fun _ _ found => ((Analysis.epsilonProduction?_iff wellFormed).mp found).listed.1) follows table fillable
    (fun lookahead member => inRange_of_follow wellFormed fits member)
  -- Only FIRST may meet something, and what it meets is the vanishing production at FOLLOW.
  rw [clashes_blank blank, append_nil] at same
  obtain ⟨entered, done, fillable, filled, noted⟩ := enterAll_ok wellFormed lower upper name
    ((Analysis.ofGrammar grammar).firstProduction? name)
    (fun _ _ found => ((Analysis.firstProduction?_iff wellFormed).mp found).2.listed.1) begins vanishing fillable
    (fun lookahead member => inRange_of_first wellFormed fits member)
  refine ⟨entered, by rw [enterRow_eq, entering]; exact done, fillable, fun other lookahead => ?_, ?_⟩
  · rw [filled, cells]
    by_cases here : other = row
    · subst here
      simp only [true_and, ite_true, Analysis.predicted?, blank, Option.or_none]
      split
      · rename_i member
        obtain ⟨shown, proper⟩ := CategorySet.mem_proper.mp member
        obtain ⟨production, found⟩ := Option.isSome_iff_exists.mp
          (Analysis.firstProduction?_isSome wellFormed proper shown)
        simp [found]
      · rfl
    · simp [here]
  · rw [noted, same, Analysis.rowConflicts, clashes]
    congr 1
    refine filterMap_congr fun lookahead _ => ?_
    cases chosen : (Analysis.ofGrammar grammar).firstProduction? name lookahead with
    | none => simp [Analysis.conflict?, chosen, bind]
    | some production =>
      by_cases behind : lookahead ∈ (Analysis.ofGrammar grammar).follow.get name
      · simp [Analysis.conflict?, clash?, cells, chosen, behind, blank, bind]
      · simp [Analysis.conflict?, clash?, cells, behind, blank]

/-- Filling in the rows behind a given one leaves the rows before it alone, and notes the conflicts of each. -/
theorem enterRows_ok (names : List Text) : ∀ (start : Nat) (table : Table),
    start + names.length ≤ grammar.nonterminals.length →
    Fillable grammar registry (columnCount (greatestCategory grammar registry)) table →
    (∀ row : Nat, start ≤ row → ∀ lookahead, table.cell? row lookahead = none) →
    ∃ entered, (names.zipIdx start).foldlM
        (fun table (name, row) => enterRow (Analysis.ofGrammar grammar) table (Int.ofNat row) name)
        table = .ok entered ∧
      Fillable grammar registry (columnCount (greatestCategory grammar registry)) entered ∧
      (∀ row : Nat, row < start → ∀ lookahead,
        entered.cell? row lookahead = table.cell? row lookahead) ∧
      (∀ (index : Nat) (name : Text), names[index]? = some name → ∀ lookahead,
        entered.cell? (start + index : Nat) lookahead =
          (Analysis.ofGrammar grammar).predicted? name lookahead) ∧
      entered.conflicts =
        table.conflicts ++ names.flatMap (Analysis.ofGrammar grammar).rowConflicts := by
  induction names with
  | nil =>
    exact fun start table _ fillable _ => ⟨table, rfl, fillable, by simp, by simp, by simp⟩
  | cons head rest ih =>
    intro start table enough fillable blank
    simp only [length_cons] at enough
    obtain ⟨first, entering, fillable, cells, met⟩ := enterRow_ok wellFormed fits fillable
      (Int.natCast_nonneg start) (by omega) head (blank start (Nat.le_refl start))
    have behind : ∀ row : Nat, start + 1 ≤ row → ∀ lookahead,
        first.cell? row lookahead = none := by
      intro row later lookahead
      rw [cells, if_neg (by omega)]
      exact blank row (by omega) lookahead
    obtain ⟨entered, done, fillable, before, filled, noted⟩ :=
      ih (start + 1) first (by omega) fillable behind
    refine ⟨entered, ?_, fillable, ?_, ?_, ?_⟩
    · rw [zipIdx_cons, foldlM_cons]
      simp only [Int.ofNat_eq_natCast, entering, bind, Except.bind]
      exact done
    · intro row earlier lookahead
      rw [before row (by omega), cells, if_neg (by omega)]
    · intro index name found lookahead
      cases index with
      | zero =>
        simp only [getElem?_cons_zero, Option.some.injEq] at found
        rw [Nat.add_zero, before start (by omega), cells, if_pos rfl, found]
      | succ index =>
        rw [getElem?_cons_succ] at found
        rw [← filled index name found lookahead]
        congr 1
        omega
    · rw [noted, met, flatMap_cons, append_assoc]

theorem build_ok :
    ∃ table, build (Analysis.ofGrammar grammar) registry = .ok table ∧
      Filled grammar registry table := by
  have wide : ¬ columnCount (greatestCategory grammar registry) < 0 := by
    obtain ⟨count, lower⟩ := columnCount_eq fits
    simp only [Category] at *
    omega
  have narrow : ¬ (grammar.nonterminals.length : Int) < 0 := by omega
  obtain ⟨table, done, fillable, -, filled, noted⟩ := enterRows_ok wellFormed fits
    grammar.nonterminals 0
    { grammar, names := grammar.nonterminals, registry
      matrix := ⟨grammar.nonterminals.length, columnCount (greatestCategory grammar registry),
        Matrix.defaultNull, []⟩ } (by simp)
    ⟨⟨rfl, rfl, rfl, rfl, rfl, rfl⟩, .nil, by simp, by simp⟩ (by simp [cell?, Matrix.stored?])
  refine ⟨table, ?_, { fillable with
    predicted := fun name lookahead => ?_, noted := by simpa using noted }⟩
  · simpa [build, Matrix.create, wide, narrow, Analysis.ofGrammar, bind, Except.bind] using done
  · have looked : table.production? name lookahead =
        (table.row? name).bind fun row => table.cell? row lookahead := rfl
    rw [looked, row?, fillable.names_eq]
    cases found : grammar.nonterminals.findIdx? fun other => other == name with
    | none =>
      rw [findIdx?_eq_none_iff] at found
      have unknown : name ∉ grammar.nonterminals := fun member => by
        simpa using found name member
      rw [predicted?_unknown wellFormed unknown]
      rfl
    | some index =>
      obtain ⟨inside, same, -⟩ := findIdx?_eq_some_iff_getElem.mp found
      have listed : grammar.nonterminals[index]? = some name := by
        rw [getElem?_eq_getElem inside, eq_of_beq same]
      simpa using filled index name listed lookahead

end Table

end ThreeAddress

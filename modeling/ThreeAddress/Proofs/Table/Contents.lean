import ThreeAddress.Proofs.Table.Cells

/-!
Everything that a parsing table tells.

The filled cells are listed in order and once each, and a conflict is told for every cell that FIRST took away from FOLLOW.
-/

namespace ThreeAddress

open List

namespace Grammar

variable {grammar : Grammar}

/-- One cell of a table comes before another: its row is that of an earlier non-terminal, or it has the lower lookahead. -/
def Precedes (grammar : Grammar) (one other : Text × Category) : Prop :=
  grammar.nonterminals.idxOf one.1 < grammar.nonterminals.idxOf other.1 ∨
    one.1 = other.1 ∧ one.2 < other.2

end Grammar

namespace Analysis

variable {grammar : Grammar} {category : Category} {name : Text} {production : Production}

/-- What a conflict tells: its cell, and the two productions that FOLLOW and FIRST choose for it. -/
theorem conflict?_eq_some {analysis : Analysis} {lookahead : Category} {conflict : Conflict} :
    analysis.conflict? name lookahead = some conflict ↔
      conflict.nonterminal = name ∧ conflict.lookahead = lookahead ∧
      lookahead ∈ analysis.follow.get name ∧
      analysis.epsilonProduction? name = some conflict.discarded ∧
      analysis.firstProduction? name lookahead = some conflict.kept ∧
      conflict.discarded ≠ conflict.kept := by
  unfold conflict?
  constructor
  · intro found
    split at found
    · rename_i behind
      obtain ⟨discarded, vanishing, found⟩ := Option.bind_eq_some_iff.mp found
      obtain ⟨kept, chosen, found⟩ := Option.bind_eq_some_iff.mp found
      split at found
      · cases found
      · rename_i apart
        cases found
        exact ⟨rfl, rfl, behind, vanishing, chosen, apart⟩
    · cases found
  · rintro ⟨rfl, rfl, behind, vanishing, chosen, apart⟩
    simp [behind, vanishing, chosen, apart, bind]

theorem rowConflicts_ordered (wellFormed : grammar.WellFormed) :
    (grammar.nonterminals.flatMap (ofGrammar grammar).rowConflicts).Pairwise
      fun one other => grammar.Precedes (one.nonterminal, one.lookahead)
        (other.nonterminal, other.lookahead) := by
  refine pairwise_flatMap.mpr ⟨fun name _ => ?_, ?_⟩
  · -- Inside a row the lookaheads of FIRST are ascending.
    have rising := (CategorySets.get_ascending (Grammar.first_invariant wellFormed).within
      name).filter fun category => category != Category.epsilon
    refine pairwise_filterMap.mpr (rising.imp ?_)
    intro lower higher less one found other later
    obtain ⟨here, low, -⟩ := conflict?_eq_some.mp found
    obtain ⟨there, high, -⟩ := conflict?_eq_some.mp later
    exact .inr ⟨here.trans there.symm, by simpa [low, high] using less⟩
  · -- From row to row the non-terminals are in the order of their positions.
    refine pairwise_iff_getElem.mpr ?_
    intro first second inFirst inSecond less one found other later
    obtain ⟨_, -, chosen⟩ := mem_filterMap.mp found
    obtain ⟨_, -, selected⟩ := mem_filterMap.mp later
    left
    simp only [(conflict?_eq_some.mp chosen).1, (conflict?_eq_some.mp selected).1,
      grammar.nonterminals_nodup.idxOf_getElem]
    exact less

end Analysis

namespace Table

variable {grammar : Grammar} {registry : Registry} {columns : Int} {name : Text} {table : Table}

/-- The cells of a table are told from the stored ones. -/
theorem cells_eq (table : Table) : table.cells = table.matrix.cells.filterMap fun cell => do
    let name ← table.names[cell.row.toNat]?
    let production ← table.grammar.production? cell.value
    return (name, cell.column + Category.endOfInput, production) :=
  filterMap_map

section

variable (framed : Framed grammar registry columns table)
include framed

theorem row?_eq_some {row : Int} :
    table.row? name = some row ↔
      0 ≤ row ∧ grammar.nonterminals[row.toNat]? = some name := by
  rw [row?, framed.names_eq, Option.map_eq_some_iff]
  constructor
  · rintro ⟨index, found, rfl⟩
    obtain ⟨inside, same, -⟩ := findIdx?_eq_some_iff_getElem.mp found
    refine ⟨Int.natCast_nonneg index, ?_⟩
    rw [Int.ofNat_eq_natCast, Int.toNat_natCast, getElem?_eq_getElem inside, eq_of_beq same]
  · rintro ⟨lower, listed⟩
    obtain ⟨inside, named⟩ := List.getElem?_eq_some_iff.mp listed
    refine ⟨row.toNat, findIdx?_eq_some_iff_getElem.mpr ⟨inside, by simp [named], ?_⟩,
      Int.toNat_of_nonneg lower⟩
    -- No name stands twice, so the first place of this name is its only one.
    intro earlier less same
    have twice : grammar.nonterminals[earlier] = grammar.nonterminals[row.toNat] := by
      rw [named]
      exact eq_of_beq same
    have := (grammar.nonterminals_nodup.getElem_inj_iff).mp twice
    omega

variable {lookahead : Category} {production : Production}

theorem mem_cells_iff :
    (name, lookahead, production) ∈ table.cells ↔ ∃ cell ∈ table.matrix.cells,
      grammar.nonterminals[cell.row.toNat]? = some name ∧ cell.column = lookahead + 2 ∧
      grammar.production? cell.value = some production := by
  simp only [cells_eq, mem_filterMap, framed.names_eq, framed.grammar_eq, bind,
    Option.bind_eq_some_iff, pure, Option.some.injEq, Prod.mk.injEq]
  refine exists_congr fun cell => and_congr_right fun _ => ?_
  constructor
  · rintro ⟨_, named, _, produced, rfl, rfl, rfl⟩
    exact ⟨named, by simp [Category.endOfInput], produced⟩
  · rintro ⟨named, column, produced⟩
    exact ⟨name, named, production, produced, rfl, by simp [column, Category.endOfInput], rfl⟩

theorem mem_cells (ordered : table.Ordered) :
    (name, lookahead, production) ∈ table.cells ↔
      table.production? name lookahead = some production := by
  rw [mem_cells_iff framed]
  simp only [production?, bind, Option.bind_eq_some_iff, row?_eq_some framed,
    Matrix.stored?_iff ordered.sorted, framed.grammar_eq, column?_eq]
  constructor
  · rintro ⟨⟨row, column, value⟩, stored, named, rfl, produced⟩
    have inside := ordered.inside _ stored
    simp only [Matrix.contains, Bool.and_eq_true, decide_eq_true_eq] at inside
    exact ⟨row, ⟨by omega, named⟩, lookahead + 2, if_pos (by omega), value, stored, produced⟩
  · rintro ⟨row, ⟨-, named⟩, column, place, value, stored, produced⟩
    split at place
    · cases place
      exact ⟨_, stored, named, rfl, produced⟩
    · cases place

theorem cells_ordered (ordered : table.Ordered) :
    table.cells.Pairwise fun one other =>
      grammar.Precedes (one.1, one.2.1) (other.1, other.2.1) := by
  have position : ∀ {cell : Cell} {name : Text}, grammar.nonterminals[cell.row.toNat]? = some name →
      grammar.nonterminals.idxOf name = cell.row.toNat := by
    intro cell name listed
    obtain ⟨inside, rfl⟩ := List.getElem?_eq_some_iff.mp listed
    exact grammar.nonterminals_nodup.idxOf_getElem ..
  rw [cells_eq]
  refine pairwise_filterMap.mpr (ordered.sorted.imp_of_mem ?_)
  intro one other here there before first found second later
  simp only [framed.names_eq, framed.grammar_eq, bind, Option.bind_eq_some_iff, pure,
    Option.some.injEq] at found later
  obtain ⟨name, named, _, _, rfl⟩ := found
  obtain ⟨next, nextNamed, _, _, rfl⟩ := later
  have lower := ordered.inside one here
  have upper := ordered.inside other there
  simp only [Matrix.contains, Bool.and_eq_true, decide_eq_true_eq] at lower upper
  simp only [Grammar.Precedes, position named, position nextNamed]
  rcases before with above | ⟨same, left⟩
  · exact .inl (by omega)
  · rw [same] at named
    exact .inr ⟨Option.some.inj (named.symm.trans nextNamed), by simpa using left⟩

theorem size_eq (ordered : table.Ordered) :
    table.size = table.cells.length := by
  rw [size, Matrix.count, cells_eq, length_filterMap_eq_countP, eq_comm, countP_eq_length]
  intro cell stored
  have inside := ordered.inside cell stored
  simp only [Matrix.contains, framed.rows_eq, Bool.and_eq_true, decide_eq_true_eq] at inside
  have row : cell.row.toNat < table.names.length := by
    rw [framed.names_eq]
    omega
  obtain ⟨production, listed⟩ := Option.isSome_iff_exists.mp (ordered.listed cell stored)
  simp [getElem?_eq_getElem row, listed]

end

theorem mem_conflicts (wellFormed : grammar.WellFormed) {conflict : Conflict} :
    conflict ∈ grammar.nonterminals.flatMap (Analysis.ofGrammar grammar).rowConflicts ↔
      conflict.lookahead ∈ (Analysis.ofGrammar grammar).first.get conflict.nonterminal ∧
      conflict.lookahead ∈ (Analysis.ofGrammar grammar).follow.get conflict.nonterminal ∧
      (Analysis.ofGrammar grammar).epsilonProduction? conflict.nonterminal =
        some conflict.discarded ∧
      (Analysis.ofGrammar grammar).firstProduction? conflict.nonterminal conflict.lookahead =
        some conflict.kept ∧
      conflict.discarded ≠ conflict.kept := by
  simp only [mem_flatMap, Analysis.rowConflicts, mem_filterMap, Analysis.conflict?_eq_some]
  constructor
  · rintro ⟨_, -, _, begins, rfl, rfl, rest⟩
    exact ⟨(CategorySet.mem_proper.mp begins).1, rest⟩
  · rintro ⟨begins, rest⟩
    -- A non-terminal with a production is one of the grammar, and no production shows the empty text.
    obtain ⟨member, same, -⟩ := ((Analysis.epsilonProduction?_iff wellFormed).mp rest.2.1).listed
    have unreserved := ((Analysis.firstProduction?_iff wellFormed).mp rest.2.2.1).1
    have proper : conflict.lookahead ≠ Category.epsilon := by
      intro isEmpty
      rw [isEmpty] at unreserved
      exact absurd unreserved (by decide)
    refine ⟨conflict.nonterminal, ?_, conflict.lookahead,
      CategorySet.mem_proper.mpr ⟨begins, proper⟩, rfl, rfl, rest⟩
    rw [← same]
    exact wellFormed.mem_nonterminals.mpr (Grammar.isNonterminal_lhs member)

/--
A parsing table is the one that FIRST and FOLLOW describe.

A cell holds the last production that begins with the lookahead where FIRST has it, and otherwise the first production that vanishes where FOLLOW has it.
The filled cells are listed once each, by non-terminal and then by lookahead, and the size is their number.
The conflicts are the cells in FIRST and FOLLOW for which these productions differ, listed once each and in the same order.
Serials fit the 32-bit words of the cells for grammars of up to 2^31 productions.
-/
theorem build_exact (assembled : grammar.Assembled) (fits : Fits grammar registry) :
    ∃ table, build (Analysis.ofGrammar grammar) registry = .ok table ∧
      (∀ name lookahead production, table.production? name lookahead = some production ↔
        ((0 ≤ lookahead ∧ lookahead ∈ (Analysis.ofGrammar grammar).first.get name) ∧
          grammar.LastWith name (fun listed => grammar.Leads listed.body lookahead) production) ∨
        (¬ (0 ≤ lookahead ∧ lookahead ∈ (Analysis.ofGrammar grammar).first.get name) ∧
          lookahead ∈ (Analysis.ofGrammar grammar).follow.get name ∧
          grammar.FirstWith name (fun listed => grammar.Derives listed.body []) production)) ∧
      (∀ name category production,
        (Analysis.ofGrammar grammar).firstProduction? name category = some production ↔
          0 ≤ category ∧
            grammar.LastWith name (fun listed => grammar.Leads listed.body category) production) ∧
      (∀ name production, (Analysis.ofGrammar grammar).epsilonProduction? name = some production ↔
        grammar.FirstWith name (fun listed => grammar.Derives listed.body []) production) ∧
      (∀ name lookahead production, (name, lookahead, production) ∈ table.cells ↔
        table.production? name lookahead = some production) ∧
      table.cells.Pairwise (fun one other =>
        grammar.Precedes (one.1, one.2.1) (other.1, other.2.1)) ∧
      table.size = table.cells.length ∧
      (∀ conflict, conflict ∈ table.conflicts ↔
        conflict.lookahead ∈ (Analysis.ofGrammar grammar).first.get conflict.nonterminal ∧
        conflict.lookahead ∈ (Analysis.ofGrammar grammar).follow.get conflict.nonterminal ∧
        grammar.FirstWith conflict.nonterminal (fun listed => grammar.Derives listed.body [])
          conflict.discarded ∧
        grammar.LastWith conflict.nonterminal
          (fun listed => grammar.Leads listed.body conflict.lookahead) conflict.kept ∧
        conflict.discarded ≠ conflict.kept) ∧
      table.conflicts.Pairwise (fun one other =>
        grammar.Precedes (one.nonterminal, one.lookahead) (other.nonterminal, other.lookahead)) ∧
      (grammar.productions.length ≤ 2 ^ 31 →
        ∀ cell ∈ table.matrix.cells, cell.value.bmod (2 ^ 32) = cell.value) := by
  have wellFormed := assembled.wellFormed
  obtain ⟨table, built, framed, ordered, cells, noted⟩ := build_ok wellFormed fits
  have begins := fun name category production =>
    @Analysis.firstProduction?_iff grammar category name production wellFormed
  have vanishes := fun name production =>
    @Analysis.epsilonProduction?_iff grammar name production wellFormed
  refine ⟨table, built, fun name lookahead production => ?_, begins, vanishes,
    fun _ _ _ => mem_cells framed ordered, cells_ordered framed ordered, size_eq framed ordered,
    fun conflict => ?_, noted ▸ Analysis.rowConflicts_ordered wellFormed,
    fun few cell stored => ?_⟩
  · -- The categories of FIRST are open, the empty text apart.
    have proper : lookahead ∈ ((Analysis.ofGrammar grammar).first.get name).proper ↔
        0 ≤ lookahead ∧ lookahead ∈ (Analysis.ofGrammar grammar).first.get name := by
      rw [CategorySet.mem_proper]
      constructor
      · rintro ⟨member, notEmpty⟩
        exact ⟨((Grammar.mem_first wellFormed notEmpty).mp member).nonneg wellFormed (by simp),
          member⟩
      · rintro ⟨unreserved, member⟩
        refine ⟨member, ?_⟩
        rintro rfl
        exact absurd unreserved (by decide)
    rw [cells, Analysis.predicted?]
    simp only [proper]
    by_cases first : 0 ≤ lookahead ∧ lookahead ∈ (Analysis.ofGrammar grammar).first.get name
    · simp [begins, first]
    · rw [if_neg first]
      by_cases behind : lookahead ∈ (Analysis.ofGrammar grammar).follow.get name
      · simp [vanishes, first, behind]
      · simp [first, behind]
  · rw [noted, mem_conflicts wellFormed, vanishes, begins]
    refine and_congr_right fun _ => and_congr_right fun behind => and_congr_right fun _ => ?_
    refine and_congr_left fun _ => and_iff_right_of_imp ?_
    rintro ⟨_, _, -, leads, -⟩
    rcases leads with ⟨isEmpty, -⟩ | ⟨proper, -⟩
    · -- The empty text follows nothing.
      rw [isEmpty] at behind
      rcases ((Grammar.mem_follow wellFormed).mp behind).unreserved wellFormed with reserved | isEnd
      · exact absurd reserved (by decide)
      · exact absurd isEnd (by decide)
    · exact proper
  · -- A stored value is the position of a production.
    have listed := ordered.listed cell stored
    rw [framed.grammar_eq] at listed
    cases place : cell.value with
    | ofNat index =>
      rw [place] at listed
      have below : index < grammar.productions.length := by
        simpa [Grammar.production?] using listed
      refine Int.bmod_eq_of_le ?_ ?_ <;> simp only [Int.ofNat_eq_natCast] <;> omega
    | negSucc index =>
      rw [place] at listed
      simp [Grammar.production?] at listed

/-- Rules for an optional part that begins with what stands behind it, in two ways. -/
def overlapRules : GrammarBuilder :=
  ((((GrammarBuilder.mk "Overlap" [] []).add "S" [.nonterminal "A", .terminal "a" 1]).add
    "A" [.terminal "a" 1]).add "A" [.terminal "a" 1, .terminal "b" 2]).add "A" []

/-- Their grammar, which is not LL(1). -/
def overlapGrammar : Grammar := ⟨"Overlap", "S", overlapRules.productions⟩

theorem overlapGrammar_assembled : overlapGrammar.Assembled :=
  ⟨overlapRules, ((GrammarBuilder.Assembled.new "Overlap").extended rfl rfl).extended rfl rfl
    |>.extended rfl rfl |>.extended rfl rfl, rfl⟩

/-- The longer way is kept, the empty text is discarded, and two cells are filled. -/
theorem build_exact_of_overlap : overlapGrammar.Assembled ∧ Fits overlapGrammar ⟨[(3, "c")]⟩ ∧
    ∃ table, build (Analysis.ofGrammar overlapGrammar) ⟨[(3, "c")]⟩ = .ok table ∧
      table.production? "A" 1 = some ⟨2, "A", [.terminal "a" 1, .terminal "b" 2]⟩ ∧
      table.production? "A" 3 = none ∧ table.size = 2 ∧
      table.conflicts = [⟨"A", 1, ⟨3, "A", [Symbol.epsilon]⟩,
        ⟨2, "A", [.terminal "a" 1, .terminal "b" 2]⟩⟩] ∧
      overlapGrammar.LastWith "A" (fun listed => overlapGrammar.Leads listed.body 1)
        ⟨2, "A", [.terminal "a" 1, .terminal "b" 2]⟩ ∧
      overlapGrammar.FirstWith "A" (fun listed => overlapGrammar.Derives listed.body [])
        ⟨3, "A", [Symbol.epsilon]⟩ := by
  have fits : Fits overlapGrammar ⟨[(3, "c")]⟩ := by
    unfold Fits
    decide
  obtain ⟨table, built, -, begins, vanishes, -⟩ := build_exact overlapGrammar_assembled fits
  refine ⟨overlapGrammar_assembled, fits, table, built, ?_⟩
  have computed : (build (Analysis.ofGrammar overlapGrammar) ⟨[(3, "c")]⟩).toOption.map
      (fun table => (table.production? "A" 1, table.production? "A" 3, table.size,
        table.conflicts)) =
      some (some ⟨2, "A", [.terminal "a" 1, .terminal "b" 2]⟩, none, 2,
        [⟨"A", 1, ⟨3, "A", [Symbol.epsilon]⟩, ⟨2, "A", [.terminal "a" 1, .terminal "b" 2]⟩⟩]) := by
    decide +kernel
  simp only [built, Except.toOption, Option.map_some, Option.some.injEq, Prod.mk.injEq] at computed
  obtain ⟨first, second, size, conflicts⟩ := computed
  exact ⟨first, second, size, conflicts, ((begins "A" 1 _).mp (by decide +kernel)).2,
    (vanishes "A" _).mp (by decide +kernel)⟩

end Table

end ThreeAddress

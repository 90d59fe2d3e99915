import ThreeAddress.Proofs.Table.Prediction
import Mathlib.Data.Finset.Card

/-!
How deep a parser goes down before it reads a token.

Between two tokens it only steps from a non-terminal to one in its predicted body, past symbols that vanish.
A grammar settles if no such descent comes back to a non-terminal; LL(1) grammars do.
-/

namespace ThreeAddress

namespace Table

/-- A symbol that the table lets vanish before a lookahead. -/
inductive Stalls (table : Table) (lookahead : Category) : Symbol → Prop where
  | expand {name : Text} {production : Production}
      (predicted : table.production? name lookahead = some production)
      (inside : ∀ symbol ∈ production.body, Stalls table lookahead symbol) :
      Stalls table lookahead (.nonterminal name)

/-- One step down before a lookahead: the inner non-terminal is reached with the lookahead unread. -/
def Descends (table : Table) (lookahead : Category) (outer inner : Text) : Prop :=
  ∃ production before after, table.production? outer lookahead = some production ∧
    production.body = before ++ .nonterminal inner :: after ∧
    ∀ symbol ∈ before, table.Stalls lookahead symbol

/-- No descent before a lookahead comes back to where it was. -/
def Settles (table : Table) : Prop :=
  ∀ lookahead name, ¬ Relation.TransGen (table.Descends lookahead) name name

variable {grammar : Grammar} {table : Table} {lookahead : Category} {symbol : Symbol}

section

variable (faithful : Faithful grammar table)
include faithful

theorem Stalls.not_begins
    (stalls : table.Stalls lookahead symbol) : ¬ grammar.Begins symbol lookahead := by
  -- The table prefers a body that begins with the lookahead, and some symbol of that body shows it.
  induction stalls with
  | expand predicted _ ih =>
    intro begins
    obtain ⟨held, found, before, symbol, after, split, -, shown⟩ := faithful.begun _ _ begins
    rw [predicted, Option.some.injEq] at found
    subst found
    exact ih symbol (by simp [split]) shown

/-- In an LL(1) grammar a descent ends that starts with a non-terminal vanishing before the lookahead. -/
theorem acc_of_vanishes (ll1 : grammar.IsLL1)
    (vanishes : grammar.Vanishes symbol) : ∀ {name : Text} {lookahead : Category},
    symbol = .nonterminal name → grammar.Follows name lookahead →
    Acc (fun inner outer => table.Descends lookahead outer inner) name := by
  induction vanishes with
  | @expand production member inside ih =>
    intro name lookahead same follows
    obtain rfl : production.lhs = name := Symbol.nonterminal.inj same
    have held := faithful.production?_eq ll1 member
      (Grammar.predicts_iff.mpr (.inr ⟨inside, follows⟩))
    refine Acc.intro _ ?_
    rintro inner ⟨found, before, after, predicted, split, -⟩
    rw [held, Option.some.injEq] at predicted
    subst predicted
    have behind : grammar.RunVanishes after := fun later found =>
      inside later (by simp [split, found])
    exact ih _ (by simp [split]) rfl (.last member split behind follows)

theorem acc_of_begins (ll1 : grammar.IsLL1)
    (begins : grammar.Begins symbol lookahead) :
    ∀ {name : Text}, symbol = .nonterminal name →
    Acc (fun inner outer => table.Descends lookahead outer inner) name := by
  induction begins with
  | terminal => simp
  | @expand production front back symbol lookahead member division passed shown ih =>
    intro name same
    obtain rfl : production.lhs = name := Symbol.nonterminal.inj same
    have held := faithful.production?_eq ll1 member
      (Grammar.predicts_iff.mpr (.inl ⟨front, symbol, back, division, passed, shown⟩))
    refine Acc.intro _ ?_
    rintro inner ⟨found, before, after, predicted, split, stalled⟩
    rw [held, Option.some.injEq] at predicted
    subst predicted
    -- The inner non-terminal stands before the symbol that shows the lookahead, or is that symbol.
    rw [division] at split
    rcases append_eq_append_cons split with ⟨middle, early, rfl⟩ | ⟨middle, rfl, late⟩
    · have vanishes := passed (.nonterminal inner) (by simp [early])
      have placed : production.body = before ++ .nonterminal inner :: (middle ++ symbol :: back) := by
        simp [division, early]
      have between : grammar.RunVanishes middle := fun earlier found =>
        passed earlier (by simp [early, found])
      exact acc_of_vanishes faithful ll1 vanishes rfl
        (.beside member placed ⟨middle, symbol, back, rfl, between, shown⟩)
    · cases middle with
      | nil =>
        simp only [List.nil_append, List.cons.injEq] at late
        exact ih late.1
      | cons head rest =>
        simp only [List.cons_append, List.cons.injEq] at late
        exact absurd shown ((stalled symbol (by simp [late.1])).not_begins faithful)

theorem Faithful.settles (ll1 : grammar.IsLL1) :
    table.Settles := by
  intro lookahead name cycle
  have ends : Acc (fun inner outer => table.Descends lookahead outer inner) name := by
    refine Acc.intro _ ?_
    rintro inner ⟨production, before, after, predicted, split, stalled⟩
    obtain ⟨member, rfl⟩ := faithful.listed _ _ _ predicted
    have descends : table.Descends lookahead production.lhs inner :=
      ⟨production, before, after, predicted, split, stalled⟩
    -- The table predicts a production in one of two ways, and descents end after both.
    rcases Grammar.predicts_iff.mp (faithful.predicted _ _ _ predicted) with
      begins | ⟨vanishes, follows⟩
    · exact (acc_of_begins faithful ll1 (Grammar.begins_of_body member begins) rfl).inv descends
    · exact (acc_of_vanishes faithful ll1 (.expand member vanishes) rfl follows).inv descends
  induction ends with
  | intro name _ ih =>
    obtain ⟨inner, step, back⟩ := Relation.TransGen.head'_iff.mp cycle
    exact ih inner step (Relation.TransGen.tail' back step)

end

/-! Ranks: how far a descent can still go. -/

open Classical in
/-- The number of non-terminals below one before a lookahead. -/
noncomputable def rank (table : Table) (lookahead : Category) (name : Text) : Nat :=
  (table.names.toFinset.filter fun other =>
    Relation.TransGen (table.Descends lookahead) name other).card

theorem Settles.rank_lt (settles : table.Settles) {outer inner : Text} (known : inner ∈ table.names)
    (step : table.Descends lookahead outer inner) :
    table.rank lookahead inner < table.rank lookahead outer := by
  classical
  refine Finset.card_lt_card (Finset.ssubset_iff_of_subset ?_ |>.mpr ⟨inner, ?_, ?_⟩)
  · intro below found
    simp only [Finset.mem_filter] at found ⊢
    exact ⟨found.1, .head step found.2⟩
  · simpa using ⟨known, Relation.TransGen.single step⟩
  · simpa using fun _ => settles lookahead inner

theorem Settles.rank_lt_length (settles : table.Settles) (lookahead : Category) {name : Text}
    (known : name ∈ table.names) : table.rank lookahead name < table.names.length := by
  classical
  refine Nat.lt_of_lt_of_le ?_ (List.toFinset_card_le table.names)
  refine Finset.card_lt_card (Finset.ssubset_iff_of_subset ?_ |>.mpr ⟨name, ?_, ?_⟩)
  · exact Finset.filter_subset _ _
  · simpa using known
  · simpa using fun _ => settles lookahead name

end Table

end ThreeAddress

import ThreeAddress.Proofs.Grammar.Sets

/-!
Passes that visit non-terminals come to an end.

Every visit marks a name that was not marked before, so that visits inside each other are no more than names.
What the work for one name keeps is kept by the whole pass, even though names in progress are met again.
-/

namespace ThreeAddress

open List

namespace CategorySets

variable {sets : CategorySets} {name : Text}

theorem find_eq (known : name ∈ sets.keys) : sets.find name = .ok (sets.get name) := by
  rw [find, lookup_of_mem_keys known]

end CategorySets

/-- Where every name has a set, no lookup fails. -/
theorem Grammar.findFirst_eq {sets : CategorySets} {symbols : List Symbol}
    (known : ∀ name, .nonterminal name ∈ symbols → name ∈ sets.keys) :
    findFirst sets symbols = .ok (firstOf sets symbols) := by
  induction symbols with
  | nil => rfl
  | cons symbol rest ih =>
    have behind := ih fun name member => known name (mem_cons_of_mem _ member)
    cases symbol with
    | terminal name category =>
      simp only [findFirst, firstOf, behind]
      split <;> rfl
    | nonterminal name =>
      have found := CategorySets.find_eq (known name mem_cons_self)
      simp only [findFirst, firstOf, found, behind, bind, Except.bind]
      split <;> rfl

namespace Pass

/-- A step of a pass that succeeds, with what then holds. -/
def Yields (holds : Pass → Prop) (result : Except Failure Pass) : Prop :=
  ∃ after, result = .ok after ∧ holds after

/-- A pass in which sets and index are in order, and at most so many names are still to be visited. -/
structure Ready (kept : CategorySets → ProductionIndex → Prop) (names : List Text) (room : Nat)
    (pass : Pass) : Prop where
  kept : kept pass.sets pass.index
  unvisited : names.countP (fun name => pass.markOf name = .unvisited) ≤ room

/-- A way to visit names that succeeds wherever it is used, and leaves everything in order. -/
def Visits (kept : CategorySets → ProductionIndex → Prop) (names : List Text) (room : Nat)
    (visit : Visit) : Prop :=
  ∀ name ∈ names, ∀ pass, Ready kept names room pass → pass.markOf name = .unvisited →
    Yields (Ready kept names room) (visit name pass)

variable {kept : CategorySets → ProductionIndex → Prop} {names : List Text} {room : Nat}
  {pass : Pass} {name : Text}

theorem markOf_mark (pass : Pass) (name other : Text) (mark : Mark) :
    (pass.mark name mark).markOf other = if other = name then mark else pass.markOf other := by
  simp only [markOf, Pass.mark, lookup_cons]
  split
  · next same => rw [if_pos (eq_of_beq same), Option.getD_some]
  · next apart => rw [if_neg (by simpa using apart)]

/-- Marking leaves no names to be visited that were visited before. -/
theorem countP_mark (pass : Pass) (name : Text) {mark : Mark} (marked : mark ≠ .unvisited)
    (names : List Text) :
    names.countP (fun other => (pass.mark name mark).markOf other = .unvisited) ≤
      names.countP fun other => pass.markOf other = .unvisited := by
  refine countP_mono_left fun other _ found => ?_
  rw [decide_eq_true_eq, markOf_mark] at found
  split at found
  · exact absurd found marked
  · simpa using found

/-- Marking a name leaves one name fewer to be visited, if it was not marked. -/
theorem Ready.mark (ready : Ready kept names (room + 1) pass) (member : name ∈ names)
    (unvisited : pass.markOf name = .unvisited) :
    Ready kept names room (pass.mark name .inProgress) := by
  refine ⟨ready.kept, ?_⟩
  have bound := ready.unvisited
  obtain ⟨front, back, rfl⟩ := append_of_mem member
  have isMark : Mark.inProgress ≠ .unvisited := by decide
  have before := countP_mark pass name isMark front
  have behind := countP_mark pass name isMark back
  have marked : (pass.mark name .inProgress).markOf name = .inProgress := by simp [markOf_mark]
  simp only [countP_append, countP_cons, unvisited, marked] at *
  simp only [decide_true, if_true, reduceCtorEq, decide_false, Bool.false_eq_true, if_false] at *
  omega

theorem Ready.finish (ready : Ready kept names room pass) (name : Text) :
    Ready kept names (room + 1) (pass.mark name .finished) :=
  ⟨ready.kept, Nat.le_succ_of_le
    (Nat.le_trans (countP_mark pass name (by decide) names) ready.unvisited)⟩

/-- A run of steps keeps what each of them keeps. -/
theorem foldlM_yields {α : Type} {step : Pass → α → Except Failure Pass} {holds : Pass → Prop}
    {items : List α} (each : ∀ item ∈ items, ∀ pass, holds pass → Yields holds (step pass item)) :
    ∀ {pass : Pass}, holds pass → Yields holds (items.foldlM step pass) := by
  induction items with
  | nil => exact fun start => ⟨_, rfl, start⟩
  | cons item rest ih =>
    intro pass start
    obtain ⟨after, done, holdsThen⟩ := each item mem_cons_self pass start
    rw [foldlM_cons, done]
    exact ih (forall_mem_cons.mp each).2 holdsThen

/-- A name that was visited before is not visited again, and the pass goes on as it is. -/
theorem reach_yields {visit : Visit} (visits : Visits kept names room visit)
    (member : name ∈ names) (ready : Ready kept names room pass) :
    Yields (Ready kept names room) (pass.reach visit name) := by
  rw [reach]
  split
  · next unvisited => exact visits name member pass ready unvisited
  · exact ⟨pass, rfl, ready⟩

theorem setOf_eq {visit : Visit} (visits : Visits kept names room visit) (member : name ∈ names)
    (known : ∀ sets index, kept sets index → name ∈ sets.keys) (ready : Ready kept names room pass) :
    ∃ after, pass.setOf visit name = .ok (after.sets.get name, after) ∧
      Ready kept names room after := by
  obtain ⟨after, done, holds⟩ := reach_yields visits member ready
  refine ⟨after, ?_, holds⟩
  simp only [setOf, done, bind, Except.bind, CategorySets.find_eq (known _ _ holds.kept)]
  rfl

variable {work : Visit → Visit}

section

variable (known : ∀ sets index, kept sets index → ∀ name ∈ names, name ∈ sets.keys)
include known

section

variable (steady : ∀ room visit, Visits kept names room visit → ∀ name ∈ names, ∀ pass, Ready kept names room pass → Yields (Ready kept names room) (work visit name pass))
include steady

/-- Visits inside each other come to an end, since each of them marks another name. -/
theorem visit_visits :
    ∀ room, Visits kept names room (visit work room) := by
  intro room
  induction room with
  | zero =>
    -- A name that is still to be visited is at least one.
    intro name member pass ready unvisited
    have none := countP_eq_zero.mp (Nat.le_zero.mp ready.unvisited) name member
    simp [unvisited] at none
  | succ room ih =>
    intro name member pass ready unvisited
    have own := CategorySets.find_eq (known _ _ ready.kept name member)
    obtain ⟨after, done, holds⟩ := steady room _ ih name member _ (ready.mark member unvisited)
    refine ⟨after.mark name .finished, ?_, holds.finish name⟩
    simp only [visit, own, done, Except.mapError, bind, Except.bind]
    rfl

/-- A pass succeeds and keeps what the work for every name keeps. -/
theorem visitAll_yields (start : kept pass.sets pass.index) :
    Yields (fun after => kept after.sets after.index) (visitAll work names pass) := by
  have ready : Ready kept names names.length pass := ⟨start, countP_le_length⟩
  have reached : Yields (Ready kept names names.length) (visitAll work names pass) :=
    foldlM_yields (fun _ member _ ready => reach_yields (visit_visits known steady _) member ready) ready
  exact reached.imp fun after done => ⟨done.1, done.2.kept⟩

end

end

end Pass

end ThreeAddress

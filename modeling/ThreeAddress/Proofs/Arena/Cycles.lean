import ThreeAddress.Proofs.Arena.Session
import ThreeAddress.Proofs.Arena.Traversal

/-!
When a node comes to stand below itself.

All work through cursors takes nodes out, puts new ones in, or shortens the ways down, and none of that closes a cycle.
Main statement: only a node that is put below one of those it stands above does.
-/

namespace ThreeAddress

open Steps Relation

variable {α : Type}

namespace Arena

variable {arena after : Arena α}

theorem Loopless.acyclic (loopless : arena.Loopless) (root : Nat) : arena.Acyclic root :=
  fun id _ => loopless id

theorem loopless_of_acyclic (each : ∀ root < arena.size, arena.Acyclic root) : arena.Loopless := by
  intro id cycle
  obtain ⟨child, listed, -⟩ := TransGen.head'_iff.mp cycle
  exact each id (lt_size_of_mem_childrenOf listed) id .refl cycle

theorem single_loopless (value : α) : (Arena.single value).Loopless := by
  intro id cycle
  obtain ⟨child, listed, -⟩ := TransGen.head'_iff.mp cycle
  cases id with
  | zero => cases listed
  | succ id => simp [Arena.Lists, Arena.childrenOf, Arena.get?, Arena.single] at listed

end Arena

namespace Session

/-- An order that puts a node below itself. -/
def Knots (session : Session α) (order : Nat × Task α) : Prop :=
  ∃ root current, session.cursors[order.1]? = some (root, current) ∧
    order.2.Knots session.arena current

variable {equal : α → α → Bool} {value : α}

/-- An order that is performed closes a cycle exactly if it puts a node below itself. -/
theorem perform_loopless_iff {session after : Session α} (sound : session.Sound)
    (loopless : session.arena.Loopless) {order : Nat × Task α}
    (performed : session.perform equal order = some after) :
    after.arena.Loopless ↔ ¬ session.Knots order := by
  obtain ⟨root, current, opened, site, found, rfl, -, -, decides⟩ := sound.site performed
  have single : session.Knots order ↔ order.2.Knots session.arena current := by
    simp [Knots, found]
  rw [single]
  exact decides loopless

theorem run_append (front back : List (Nat × Task α)) :
    Session.run equal value (front ++ back) =
      (Session.run equal value front).bind fun session => back.foldlM (perform equal) session := by
  simp only [Session.run, List.foldlM_append]
  rfl

theorem run_concat (front : List (Nat × Task α)) (last : Nat × Task α) :
    Session.run equal value (front ++ [last]) =
      (Session.run equal value front).bind fun session => session.perform equal last := by
  rw [run_append]
  simp

/-- As long as no order puts a node below itself, no node is. -/
theorem loopless_of_run {orders : List (Nat × Task α)}
    (free : ∀ earlier order later between, orders = earlier ++ order :: later →
      Session.run equal value earlier = some between → ¬ between.Knots order) :
    ∀ {session}, Session.run equal value orders = some session → session.arena.Loopless := by
  induction orders using List.reverseRecOn with
  | nil =>
    rintro session ⟨rfl⟩
    exact Arena.single_loopless value
  | append_singleton front last ih =>
    intro session ran
    rw [run_concat] at ran
    obtain ⟨between, before, performed⟩ := Option.bind_eq_some_iff.mp ran
    -- What is asked of all orders is asked of those in front of the last one.
    have loopless := ih (fun earlier order later middle same =>
      free earlier order (later ++ [last]) middle (by simp [same])) before
    exact (perform_loopless_iff (sound_of_run before) loopless performed).mpr
      (free front last [] between rfl before)

/--
Work through cursors keeps a tree a tree exactly as long as it puts no node below one that it stands above.

A session has no cycle exactly if every walk comes to an end, and then finding leaves and replacing nodes do, too.
-/
theorem run_loopless_iff_no_knot {orders : List (Nat × Task α)} {session : Session α}
    (ran : Session.run equal value orders = some session) :
    ((∀ earlier later between, orders = earlier ++ later →
        Session.run equal value earlier = some between → between.arena.Loopless) ↔
      ∀ earlier order later between, orders = earlier ++ order :: later →
        Session.run equal value earlier = some between → ¬ between.Knots order) ∧
    (session.arena.Loopless ↔
      ∀ root < session.arena.size, ∃ visits, session.arena.walk root = .ok visits) ∧
    (session.arena.Loopless → ∀ root < session.arena.size,
      (∀ enters, ∃ visits, session.arena.walk root enters = .ok visits) ∧
      (∃ leaves, session.arena.leaves root = .ok leaves) ∧
      ∀ visit : Visitor α, visit.Modest → ∀ current,
        ((Edit.replaceNodes visit).run ⟨session.arena, root, current⟩).1 ≠ .error .cyclicTree) := by
  have consistent := (sound_of_run ran).consistent
  refine ⟨⟨fun loopless => ?_, fun free => ?_⟩, ⟨fun loopless => ?_, fun walks => ?_⟩, ?_⟩
  · -- The session behind an order is one of those without cycles, and so is the one in front of it.
    rintro earlier order later between rfl before
    have further := ran
    rw [run_append, before, Option.bind_some, List.foldlM_cons] at further
    obtain ⟨behind, performed, -⟩ := Option.bind_eq_some_iff.mp further
    refine (perform_loopless_iff (sound_of_run before)
      (loopless earlier (order :: later) between rfl before) performed).mp ?_
    refine loopless (earlier ++ [order]) later behind (by simp) ?_
    rw [run_concat, before]
    exact performed
  · rintro earlier later between rfl before
    refine loopless_of_run (fun first order rest middle same => ?_) before
    exact free first order (rest ++ later) middle (by simp [same])
  · exact fun root present => (consistent.exists_walk_iff present).mpr (loopless.acyclic root)
  · exact Arena.loopless_of_acyclic fun root present =>
      (consistent.exists_walk_iff present).mp (walks root present)
  · intro loopless root present
    have acyclic := loopless.acyclic root
    refine ⟨consistent.exists_walk acyclic present, consistent.exists_leaves acyclic present, ?_⟩
    intro visit modest current
    have ends := @Edit.replaceNodes_ends α visit modest ⟨session.arena, root, current⟩ consistent
      acyclic present
    exact ends.bounded

/-- A node is taken out of the tree, and comes back below one that stood beside it. -/
def movedBelow : List (Nat × Task Nat) :=
  [(0, .appendAll [10, 20]), (0, .append 1 11), (0, .deleteChild 10), (0, .toChild 0),
    (0, .splice 0 [1])]

/-- It stands above nothing but its own child, so there is no cycle, and asking for every node comes to an end. -/
theorem run_loopless_moved : ∃ session,
    Session.run (· == ·) 0 movedBelow = some session ∧ session.arena.childrenOf 2 = [1] ∧
      session.arena.Loopless ∧
      ∀ current, ((Edit.replaceNodes fun id => pure [id]).run ⟨session.arena, 0, current⟩).1 ≠
        .error .cyclicTree := by
  have computed : (Session.run (· == ·) 0 movedBelow).map (fun session =>
      (session.arena.childrenOf 2, session.arena.size,
        (List.range 4).all fun root => (session.arena.walk root).toBool)) =
      some ([1], 4, true) := by decide +kernel
  obtain ⟨session, ran, same⟩ := Option.map_eq_some_iff.mp computed
  simp only [Prod.mk.injEq, List.all_eq_true, List.mem_range] at same
  obtain ⟨lists, size, walks⟩ := same
  obtain ⟨-, walked, ends⟩ := run_loopless_iff_no_knot ran
  have loopless := walked.mpr fun root present => by
    have returned := walks root (size ▸ present)
    cases found : session.arena.walk root with
    | ok visits => exact ⟨visits, rfl⟩
    | error fault => rw [found] at returned; cases returned
  refine ⟨session, ran, lists, loopless, fun current => ?_⟩
  exact (ends loopless 0 (by omega)).2.2 _ (fun _ _ => Edit.ends_pure) current

/-- The root of a tree can be put below its own child, and then a walk does not come to an end. -/
theorem root_below_itself : ∃ session,
    Session.run (· == ·) 0 [(0, .append 0 1), (0, .toChild 0), (0, .splice 0 [0])] = some session ∧
      TransGen session.arena.Lists 0 0 ∧ session.arena.walk 0 = .error .cyclicTree := by
  refine ⟨⟨⟨[⟨0, some 1, [1]⟩, ⟨1, some 0, [0]⟩]⟩, [(0, 1)]⟩, by decide +kernel, ?_, by decide +kernel⟩
  have down : 1 ∈ [1] := List.mem_singleton_self 1
  have up : 0 ∈ [0] := List.mem_singleton_self 0
  exact .head (b := 1) down (.single up)

end Session

end ThreeAddress

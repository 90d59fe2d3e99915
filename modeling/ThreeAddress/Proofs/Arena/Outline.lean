import ThreeAddress.Command.Outline
import ThreeAddress.Proofs.Arena.Traversal
import ThreeAddress.Proofs.Syntax.Brackets

/-!
Going through a parse tree with a cursor.

A cursor goes down by lists of children and comes back by links to parents, and a walk goes by lists alone.
Main statement: both visit the same nodes in the same order, in the arena that a parse leaves and once it is normalized in place.
-/

namespace ThreeAddress

open Steps ThreeAddress.Tree List

variable {α : Type}

namespace Edit

variable {arena : Arena α} {root number : Nat}

theorem run_toChild {index child : Nat} (found : (arena.childrenOf number)[index]? = some child) :
    (toChild index).run ⟨arena, root, number⟩ = (.ok true, ⟨arena, root, child⟩) := by
  simp only [toChild, run_bind, run_get, found, run_set, run_pure]

theorem run_toParent {parent : Nat} (linked : arena.parentOf number = some parent)
    (inner : number ≠ root) :
    toParent.run ⟨arena, root, number⟩ = (.ok true, ⟨arena, root, parent⟩) := by
  simp only [toParent, run_bind, run_get, linked, if_neg inner, run_set, run_pure]

/-- The children that are left are visited one by one, and the cursor comes back from each of them. -/
theorem run_childrenFrom {visit : Edit α (List (Nat × Nat))} {result : Tree α → List (Nat × Nat)}
    {children : List (Tree α)} (listed : arena.childrenOf number = children.map Tree.id)
    (each : ∀ child ∈ children, visit.run ⟨arena, root, child.id⟩ =
      (.ok (result child), ⟨arena, root, child.id⟩))
    (links : ∀ child ∈ children, arena.parentOf child.id = some number ∧ child.id ≠ root)
    (back : List (Tree α)) : ∀ {front : List (Tree α)} {bound : Nat}, children = front ++ back →
    back.length < bound → (childrenFrom visit bound front.length).run ⟨arena, root, number⟩ =
      (.ok (back.map result).flatten, ⟨arena, root, number⟩) := by
  induction back with
  | nil =>
    intro front bound split enough
    obtain ⟨bound, rfl⟩ := Nat.exists_eq_succ_of_ne_zero (Nat.ne_of_gt enough)
    have none : ¬ front.length < (arena.childrenOf number).length := by simp [listed, split]
    simp only [childrenFrom, run_bind, run_get, if_neg none, run_pure]
    rfl
  | cons child rest ih =>
    intro front bound split enough
    obtain ⟨bound, rfl⟩ := Nat.exists_eq_succ_of_ne_zero (Nat.ne_of_gt (Nat.zero_lt_of_lt enough))
    have member : child ∈ children := by simp [split]
    have one : front.length < (arena.childrenOf number).length := by simp [listed, split]
    have down : (arena.childrenOf number)[front.length]? = some child.id := by simp [listed, split]
    obtain ⟨linked, inner⟩ := links child member
    have later := @ih (front ++ [child]) bound (by simp [split])
      (Nat.lt_of_succ_lt_succ (by simpa using enough))
    rw [length_append, length_singleton] at later
    simp only [childrenFrom, run_bind, run_get, if_pos one, run_toChild down, each child member,
      run_toParent linked inner, later, run_pure]
    rfl

/-- The cursor visits the nodes of a tree in pre-order and comes back to where it was. -/
theorem run_leveledFrom {tree : Tree α} {bound : Nat} (enough : tree.ids.length ≤ bound)
    (few : tree.ids.length ≤ arena.size) (depth : Nat) (holds : arena.Holds tree)
    (linked : arena.Linked tree) (outside : root ∉ tree.innerIds) :
    (leveledFrom bound depth).run ⟨arena, root, tree.id⟩ =
      (.ok (tree.visits (fun _ => true) depth), ⟨arena, root, tree.id⟩) := by
  induction tree using Tree.induct generalizing bound depth with
  | node number value children ih =>
    obtain ⟨bound, rfl, shorter⟩ := exists_less enough
    obtain ⟨size, isSize, fewer⟩ := exists_less few
    obtain ⟨-, listed, below⟩ := Arena.holds_node.mp holds
    obtain ⟨links, inner⟩ := Arena.linked_node.mp linked
    have rounds : children.length < arena.size + 1 := by
      have all := (Sublist.flatMap_right children fun child _ =>
        singleton_sublist.mpr child.id_mem_ids).length_le
      rw [← map_eq_flatMap, length_map] at all
      rw [ids_eq, length_cons] at few
      exact Nat.lt_succ_of_le (Nat.le_trans all (Nat.le_of_succ_le few))
    have each : ∀ child ∈ children, (leveledFrom bound (depth + 1)).run ⟨arena, root, child.id⟩ =
        (.ok (child.visits (fun _ => true) (depth + 1)), ⟨arena, root, child.id⟩) :=
      fun child member => ih child member (shorter child member)
        (isSize ▸ Nat.le_succ_of_le (fewer child member)) (depth + 1) (below child member)
        (inner child member) fun inside => outside (mem_innerIds member (mem_ids_of_inner inside))
    -- The links lead back, since the root of the view is not below the node.
    have back : ∀ child ∈ children, arena.parentOf child.id = some number ∧ child.id ≠ root :=
      fun child member => ⟨links child member, fun same =>
        outside (same ▸ mem_innerIds member child.id_mem_ids)⟩
    have visited := @run_childrenFrom _ _ _ _ _ _ _ listed each back children [] _ rfl rounds
    rw [length_nil] at visited
    rw [leveledFrom, visits, if_pos rfl]
    simp only [run_bind, run_get, Tree.id, visited, run_pure]

end Edit

theorem Tree.visits_fst (tree : Tree α) : ∀ depth,
    (tree.visits (fun _ => true) depth).map Prod.fst = tree.ids := by
  induction tree using Tree.induct with
  | node number value children ih =>
    intro depth
    rw [visits, if_pos rfl, map_cons, map_flatten, map_map, ids_eq, innerIds,
      flatMap_def]
    exact congrArg (number :: List.flatten ·) (map_congr_left fun child member =>
      ih child member (depth + 1))

/-- A cursor on the root of a view and a walk from there visit the same nodes in the same order, all that can be reached and each once, and the cursor comes back. -/
def Site.Outlined (site : Site α) : Prop :=
  ∃ visits, Edit.leveled.run { site with current := site.root } =
      (.ok visits, { site with current := site.root }) ∧
    site.arena.walk site.root = .ok visits ∧ (visits.map Prod.fst).Nodup ∧
    ∀ id, id ∈ visits.map Prod.fst ↔ Relation.ReflTransGen site.arena.Lists site.root id

namespace Site.Shows

variable {site : Site α} {tree : Tree α}

theorem outlined (shows : site.Shows tree) : site.Outlined := by
  have few := shows.holds.length_le shows.distinct
  have enough := Nat.le_succ_of_le few
  rw [Outlined, shows.root]
  refine ⟨tree.visits (fun _ => true) 0, ?_, shows.holds.walkFrom_eq _ enough 0, ?_, fun id => ?_⟩
  · rw [Edit.leveled, run_bind, run_get]
    exact Edit.run_leveledFrom enough few 0 shows.holds shows.linked (id_not_mem_inner shows.distinct)
  · rw [visits_fst]
    exact shows.distinct
  · rw [visits_fst]
    exact shows.holds.reachable_iff.symm

theorem replaceNodes (shows : site.Shows tree) {visit : Visitor α} {replace : Replacement α}
    (chooses : Chooses replace) (performs : visit.Performs replace) : ∃ after,
    (Edit.replaceNodes visit).run site = (.ok tree.postorder, after) ∧
      after.Shows (tree.replaceNodes replace) := by
  obtain ⟨after, ran, replaced⟩ := Edit.run_replaceNodes_placed chooses performs
    shows.root.symm shows.holds shows.distinct fun parent linked => by
      simp [shows.root, shows.top] at linked
  refine ⟨after, ran, replaced.root, replaced.holds, replaced.linked, replaced.distinct, ?_⟩
  rw [← replaced.root, replaced.parent, shows.root, shows.top]

end Site.Shows

namespace Normalizer

variable (normalizer : Normalizer)

/-- The replacement that a pass makes in a tree. -/
def replacement : Pass → Replacement Label
  | .unwrap => normalizer.unwrap
  | .shrink => shrink
  | .ungroup => normalizer.ungroup

theorem visitor_performs (pass : Pass) :
    (normalizer.visitor pass).Performs (normalizer.replacement pass) := by
  intro site tree holds
  obtain ⟨found, isFound, valued, listed⟩ := holds.exists_node
  cases pass with
  | unwrap =>
    simp only [visitor, replacement, unwrap, run_bind, Edit.run_node isFound, valued, listed, run_pure]
    split
    · rfl
    · rfl
  | shrink =>
    simp only [visitor, replacement, shrink, run_bind, Edit.run_node isFound, valued, listed]
    split
    · rfl
    · -- Both look at how many children there are.
      cases tree.children with
      | nil => rfl
      | cons only rest => cases rest <;> rfl
  | ungroup =>
    have below : ∀ child ∈ tree.children, ∃ node, site.arena.get? child.id = some node ∧
        node.value = child.value := fun child member => by
      obtain ⟨node, present, same, -⟩ := (holds.child member).exists_node
      exact ⟨node, present, same⟩
    simp only [visitor, replacement, ungroup, run_bind, Edit.run_node isFound, listed]
    -- Only where there are three children their values are looked at.
    generalize tree.children = children at below ⊢
    rcases children with _ | ⟨first, _ | ⟨inner, _ | ⟨last, _ | ⟨fourth, rest⟩⟩⟩⟩
    · rfl
    · rfl
    · rfl
    · obtain ⟨opening, isOpening, opens⟩ := below first (by simp)
      obtain ⟨closing, isClosing, closes⟩ := below last (by simp)
      simp only [map_cons, map_nil, run_bind, Edit.run_node isOpening,
        Edit.run_node isClosing, opens, closes, run_pure]
      split
      · rfl
      · rfl
    · rfl

/-- Normalizing a view in place leaves the normalized tree in it. -/
theorem normalizeView_shows {site : Site Label} {tree : SyntaxTree} (shows : site.Shows tree) :
    ∃ after, normalizer.normalizeView.run site = (.ok (), after) ∧
      after.Shows (normalizer.normalize tree) := by
  obtain ⟨unwrapped, ran, first⟩ :=
    shows.replaceNodes normalizer.unwrap_chooses (normalizer.visitor_performs .unwrap)
  obtain ⟨shrunk, ranThen, second⟩ :=
    first.replaceNodes shrink_chooses (normalizer.visitor_performs .shrink)
  obtain ⟨after, ranLast, third⟩ :=
    second.replaceNodes normalizer.ungroup_chooses (normalizer.visitor_performs .ungroup)
  refine ⟨after, ?_, third⟩
  simp only [normalizeView, run_bind, ran, ranThen, ranLast, run_pure]

end Normalizer

/--
A cursor and a walk visit the same nodes of a parse tree in the same order and with the same depths, each once, and the cursor comes back to the root.

This holds of the arena that the parse leaves, and of the same arena once it is normalized in place.
-/
theorem leveled_agrees_with_walk {parser : Parser} {source : TokenSource} {tree : SyntaxTree}
    (parsed : parser.parse source = .ok tree) (normalizer : Normalizer) :
    ∃ arena after, parser.build source = .ok arena ∧ Site.Shows ⟨arena, 0, 0⟩ tree ∧
      Site.Outlined ⟨arena, 0, 0⟩ ∧
      normalizer.normalizeView.run ⟨arena, 0, 0⟩ = (.ok (), after) ∧
      after.Shows (normalizer.normalize tree) ∧ after.Outlined := by
  obtain ⟨arena, built, shows⟩ := Parser.build_of_parse parsed
  obtain ⟨after, ran, normal⟩ := normalizer.normalizeView_shows shows
  exact ⟨arena, after, built, shows, shows.outlined, ran, normal, normal.outlined⟩

/-- A letter in two pairs of brackets comes into the place of the root, from which the cursor starts and to which it comes back. -/
theorem leveled_agrees_for_letter :
    ∃ table tree, Table.build (Analysis.ofGrammar groupGrammar) {} = .ok table ∧
      Parser.parse { table } (.ofTokens (Token.ofCategories [1, 1, 3, 2, 2])) = .ok tree ∧
      ∃ arena after, Parser.build { table } (.ofTokens (Token.ofCategories [1, 1, 3, 2, 2])) =
          .ok arena ∧
        (Normalizer.normalizeView ⟨[], 1, 2⟩).run ⟨arena, 0, 0⟩ = (.ok (), after) ∧
        after.root = 7 ∧ after.Outlined := by
  have computed : ((Table.build (Analysis.ofGrammar groupGrammar) {}).toOption.bind fun table =>
      (Parser.parse { table } (.ofTokens (Token.ofCategories [1, 1, 3, 2, 2]))).toOption.bind
        fun tree => some (Normalizer.normalize ⟨[], 1, 2⟩ tree).id) = some 7 := by
    decide +kernel
  obtain ⟨table, built, further⟩ := ok_of_toOption_bind computed
  obtain ⟨tree, parsed, root⟩ := ok_of_toOption_bind further
  obtain ⟨arena, after, made, -, -, ran, shows, outlined⟩ :=
    leveled_agrees_with_walk parsed ⟨[], 1, 2⟩
  exact ⟨table, tree, built, parsed, arena, after, made, ran,
    shows.root.trans (Option.some.inj root), outlined⟩

end ThreeAddress

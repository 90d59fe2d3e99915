import ThreeAddress.Proofs.Tree.Basic
import Mathlib.Data.List.Flatten
import Mathlib.Data.List.Nodup
import Mathlib.Data.List.Pairwise

/-!
Replacing the nodes of a tree from the leaves up.

A replacement that keeps a node, drops it, or puts its children or one of them in its place makes no new nodes: the numbers that stay are some of those that were there, in the same order.
-/

namespace ThreeAddress

open List

namespace Tree

variable {α : Type}

theorem replaceForest_eq (replace : Replacement α) (trees : List (Tree α)) :
    replaceForest replace trees = trees.flatMap fun tree => replace (replaceBelow replace tree) := by
  induction trees with
  | nil => rfl
  | cons tree rest ih => rw [replaceForest, ih, flatMap_cons]

theorem replaceForest_append (replace : Replacement α) (first second : List (Tree α)) :
    replaceForest replace (first ++ second) =
      replaceForest replace first ++ replaceForest replace second := by
  simp only [replaceForest_eq, flatMap_append]

theorem replaceForest_node (replace : Replacement α) (id : Nat) (value : α)
    (children : List (Tree α)) :
    replaceForest replace [.node id value children] =
      replace (.node id value (replaceForest replace children)) := by
  rw [replaceForest, replaceForest, append_nil, replaceBelow]

variable {tree sub chosen : Tree α} {number : Nat} {trees : List (Tree α)}

theorem replaceNodes_eq {replace : Replacement α} {only : Tree α}
    (single : replaceForest replace [tree] = [only]) : replaceNodes replace tree = only := by
  have here : replace (replaceBelow replace tree) = [only] := by
    rw [← single, replaceForest, replaceForest, append_nil]
  rw [replaceNodes, here]

/-! The numbers of a tree. -/

/-- The nodes in pre-order, each with all below it. -/
def subtrees (tree : Tree α) : List (Tree α) := tree.nodes.map Prod.snd

/-- The numbers of all nodes in pre-order. -/
def ids (tree : Tree α) : List Nat := tree.subtrees.map id

/-- The numbers of all nodes below the root. -/
def innerIds (tree : Tree α) : List Nat := tree.children.flatMap ids

mutual

/-- The numbers of all nodes, children before their parents. -/
def postorder : Tree α → List Nat
  | node id _ children => forestPostorder children ++ [id]
termination_by structural tree => tree

/-- The numbers of all nodes of some trees, children before their parents. -/
def forestPostorder : List (Tree α) → List Nat
  | [] => []
  | tree :: rest => postorder tree ++ forestPostorder rest
termination_by structural trees => trees

end

theorem subtrees_node (number : Nat) (value : α) (children : List (Tree α)) :
    (node number value children).subtrees =
      node number value children :: children.flatMap subtrees :=
  nodes_node number value children

theorem ids_eq (tree : Tree α) : tree.ids = tree.id :: tree.innerIds := by
  cases tree with
  | node number value children =>
    rw [ids, subtrees_node, map_cons, map_flatMap]
    rfl

theorem self_mem_subtrees (tree : Tree α) : tree ∈ tree.subtrees := by
  cases tree with
  | node number value children =>
    rw [subtrees_node]
    exact mem_cons_self

theorem id_mem_ids (tree : Tree α) : tree.id ∈ tree.ids := by
  rw [ids_eq]
  exact mem_cons_self

theorem mem_ids_of_inner (inside : number ∈ tree.innerIds) : number ∈ tree.ids := by
  rw [ids_eq]
  exact mem_cons_of_mem _ inside

theorem id_not_mem_inner (distinct : tree.ids.Nodup) : tree.id ∉ tree.innerIds := by
  rw [ids_eq] at distinct
  exact (nodup_cons.mp distinct).1

theorem mem_innerIds {child : Tree α} (member : child ∈ tree.children) (inside : number ∈ child.ids) :
    number ∈ tree.innerIds :=
  mem_flatMap.mpr ⟨child, member, inside⟩

/-- A bound on the numbers of a tree leaves a bound for each child. -/
theorem exists_less {bound : Nat} (enough : tree.ids.length ≤ bound) :
    ∃ less, bound = less + 1 ∧ ∀ child ∈ tree.children, child.ids.length ≤ less := by
  rw [ids_eq, length_cons] at enough
  refine ⟨bound - 1, by omega, fun child member => ?_⟩
  have shorter : child.ids.Sublist tree.innerIds := sublist_flatten_of_mem (mem_map_of_mem member)
  have := shorter.length_le
  omega

theorem mem_subtrees_cases (member : sub ∈ tree.subtrees) :
    sub = tree ∨ ∃ child ∈ tree.children, sub ∈ child.subtrees := by
  cases tree with
  | node number value children =>
    rw [subtrees_node] at member
    rcases mem_cons.mp member with same | below
    · exact .inl same
    · exact .inr (mem_flatMap.mp below)

theorem child_mem_subtrees {child : Tree α} (member : sub ∈ tree.subtrees)
    (isChild : child ∈ sub.children) : child ∈ tree.subtrees := by
  induction tree using induct with
  | node number value children ih =>
    rw [subtrees_node]
    refine mem_cons_of_mem _ (mem_flatMap.mpr ?_)
    rcases mem_subtrees_cases member with rfl | ⟨first, isFirst, below⟩
    · exact ⟨child, isChild, child.self_mem_subtrees⟩
    · exact ⟨first, isFirst, ih first isFirst below⟩

theorem eq_of_mem_ids (distinct : (trees.flatMap ids).Nodup) {one other : Tree α}
    (isOne : one ∈ trees) (isOther : other ∈ trees) (ofOne : number ∈ one.ids)
    (ofOther : number ∈ other.ids) : one = other := by
  by_contra different
  -- Different trees of the list have no number in common, whichever of them stands first.
  have apart := (nodup_flatMap.mp distinct).2
  have symmetric : Std.Symm (Function.onFun List.Disjoint (ids : Tree α → List Nat)) :=
    ⟨fun _ _ disjoint _ here there => disjoint there here⟩
  exact apart.forall isOne isOther different ofOne ofOther

theorem id_not_mem_innerIds (distinct : (trees.flatMap ids).Nodup) {one other : Tree α}
    (isOne : one ∈ trees) (isOther : other ∈ trees) : one.id ∉ other.innerIds := by
  intro below
  -- The number of the one root tells its tree, so that the root would be below itself.
  obtain rfl := eq_of_mem_ids distinct isOne isOther one.id_mem_ids (mem_ids_of_inner below)
  exact id_not_mem_inner ((nodup_flatMap.mp distinct).1 one isOne) below

/-! Replacements that only choose among what is there. -/

/-- A replacement keeps a node, drops it, or puts its children or one of them in its place. -/
def Chooses (replace : Replacement α) : Prop :=
  ∀ tree, replace tree = [tree] ∨ replace tree = [] ∨ replace tree = tree.children ∨
    ∃ child ∈ tree.children, replace tree = [child]

/-- A node that is not among those that take its place. -/
def Dropped (replace : Replacement α) (tree : Tree α) : Prop :=
  tree.id ∉ (replace (replaceBelow replace tree)).map id

variable {replace : Replacement α}

@[simp]
theorem id_replaceBelow (tree : Tree α) : (replaceBelow replace tree).id = tree.id := by
  cases tree with
  | node number value children => rw [replaceBelow]; rfl

@[simp]
theorem children_replaceBelow (tree : Tree α) :
    (replaceBelow replace tree).children = replaceForest replace tree.children := by
  cases tree with
  | node number value children => rw [replaceBelow]; rfl

/-- What takes the place of a node is the node itself or one of its children. -/
theorem Chooses.cases (chooses : Chooses replace) {tree chosen : Tree α}
    (member : chosen ∈ replace tree) : chosen = tree ∨ chosen ∈ tree.children := by
  rcases chooses tree with keeps | drops | spreads | ⟨child, isChild, picks⟩
  · rw [keeps] at member
    exact .inl (mem_singleton.mp member)
  · rw [drops] at member
    cases member
  · exact .inr (spreads ▸ member)
  · rw [picks] at member
    exact .inr (mem_singleton.mp member ▸ isChild)

theorem Chooses.sublist (chooses : Chooses replace) (tree : Tree α) :
    ((replace tree).flatMap ids).Sublist tree.ids := by
  rcases chooses tree with keeps | drops | spreads | ⟨child, isChild, picks⟩
  · rw [keeps, flatMap_singleton]
  · rw [drops]
    exact nil_sublist _
  · rw [spreads, ids_eq]
    exact sublist_cons_self _ _
  · rw [picks, flatMap_singleton, ids_eq tree]
    refine .cons _ ?_
    exact sublist_flatten_of_mem (mem_map_of_mem isChild)

variable (chooses : Chooses replace)
include chooses

theorem replaceBelow_sublist (tree : Tree α) :
    (replaceBelow replace tree).ids.Sublist tree.ids := by
  induction tree using induct with
  | node number value children ih =>
    -- The root keeps its number, and each child gives way to some of what it has.
    rw [ids_eq, ids_eq, id_replaceBelow]
    refine .cons_cons _ ?_
    rw [innerIds, innerIds, children_replaceBelow, replaceForest_eq, flatMap_assoc]
    exact Sublist.flatMap_right _ fun child member => (chooses.sublist _).trans (ih child member)

theorem replaced_sublist (tree : Tree α) :
    ((replace (replaceBelow replace tree)).flatMap ids).Sublist tree.ids :=
  (chooses.sublist _).trans (replaceBelow_sublist chooses tree)

theorem replaceForest_sublist (trees : List (Tree α)) :
    ((replaceForest replace trees).flatMap ids).Sublist (trees.flatMap ids) := by
  rw [replaceForest_eq, flatMap_assoc]
  exact Sublist.flatMap_right _ fun tree _ => replaced_sublist chooses tree

theorem mem_of_mem_replaceForest (member : chosen ∈ replaceForest replace trees) : ∃ tree ∈ trees,
      chosen ∈ replace (replaceBelow replace tree) ∧ ∀ number ∈ chosen.ids, number ∈ tree.ids := by
  rw [replaceForest_eq] at member
  obtain ⟨tree, isTree, inPlace⟩ := mem_flatMap.mp member
  exact ⟨tree, isTree, inPlace, fun number inside =>
    (replaced_sublist chooses tree).subset (mem_flatMap.mpr ⟨chosen, inPlace, inside⟩)⟩

theorem mem_innerIds_of_replaceBelow (inside : number ∈ (replaceBelow replace tree).innerIds) :
    number ∈ tree.innerIds := by
  rw [innerIds, children_replaceBelow] at inside
  exact (replaceForest_sublist chooses tree.children).subset inside

theorem id_not_mem_innerIds_replaced (distinct : tree.ids.Nodup)
    (member : chosen ∈ replace (replaceBelow replace tree)) : tree.id ∉ chosen.innerIds := by
  intro inside
  refine id_not_mem_inner distinct (mem_innerIds_of_replaceBelow chooses ?_)
  -- What took the place is the node itself, without some of what was below, or one of its children.
  rcases chooses.cases member with rfl | isChild
  · exact inside
  · exact mem_innerIds isChild (mem_ids_of_inner inside)

theorem root_not_mem_innerIds (distinct : (trees.flatMap ids).Nodup) (isTree : tree ∈ trees)
    (member : chosen ∈ replaceForest replace trees) : tree.id ∉ chosen.innerIds := by
  intro inside
  obtain ⟨other, isOther, inPlace, within⟩ := mem_of_mem_replaceForest chooses member
  -- What has the number of a tree below it took the place of that tree.
  obtain rfl := eq_of_mem_ids distinct isTree isOther tree.id_mem_ids
    (within _ (mem_ids_of_inner inside))
  exact id_not_mem_innerIds_replaced chooses ((nodup_flatMap.mp distinct).1 tree isTree)
    inPlace inside

theorem not_mem_replaced_of_dropped (tree : Tree α) (distinct : tree.ids.Nodup) :
    ∀ sub ∈ tree.subtrees, Dropped replace sub →
      sub.id ∉ (replace (replaceBelow replace tree)).flatMap ids := by
  induction tree using induct with
  | node number value children ih =>
    intro sub member dropped inside
    obtain ⟨chosen, isChosen, listed⟩ := mem_flatMap.mp inside
    rw [ids_eq] at distinct
    obtain ⟨apart, below⟩ := nodup_cons.mp distinct
    rcases mem_subtrees_cases member with rfl | ⟨child, isChild, isBelow⟩
    · -- The root could only be left as itself.
      rcases chooses.cases isChosen with rfl | isLater
      · exact dropped (mem_map.mpr ⟨_, isChosen, id_replaceBelow _⟩)
      · exact apart (mem_innerIds_of_replaceBelow chooses (mem_innerIds isLater listed))
    · have ofChild : sub.id ∈ child.ids := mem_map_of_mem isBelow
      have left : sub.id ∈ (replaceForest replace children).flatMap ids := by
        have ofBelow : sub.id ∈ (replaceBelow replace (node number value children)).ids :=
          (chooses.sublist _).subset inside
        rw [ids_eq, id_replaceBelow, innerIds, children_replaceBelow] at ofBelow
        refine (mem_cons.mp ofBelow).resolve_left fun same => apart ?_
        rw [← same]
        exact mem_innerIds isChild ofChild
      -- What is left of the children is left of the one child that has the node.
      obtain ⟨later, isLater, found⟩ := mem_flatMap.mp left
      obtain ⟨other, isOther, inPlace, within⟩ := mem_of_mem_replaceForest chooses isLater
      obtain rfl := eq_of_mem_ids below isChild isOther ofChild (within _ found)
      exact ih child isChild ((nodup_flatMap.mp below).1 child isChild) sub isBelow dropped
        (mem_flatMap.mpr ⟨later, inPlace, found⟩)

theorem not_mem_replaceForest_of_dropped (distinct : (trees.flatMap ids).Nodup)
    (isTree : tree ∈ trees) (member : sub ∈ tree.subtrees) (dropped : Dropped replace sub) :
    sub.id ∉ (replaceForest replace trees).flatMap ids := by
  intro inside
  obtain ⟨later, isLater, found⟩ := mem_flatMap.mp inside
  obtain ⟨other, isOther, inPlace, within⟩ := mem_of_mem_replaceForest chooses isLater
  obtain rfl := eq_of_mem_ids distinct isTree isOther (mem_map_of_mem member) (within _ found)
  exact not_mem_replaced_of_dropped chooses tree ((nodup_flatMap.mp distinct).1 tree isTree)
    sub member dropped (mem_flatMap.mpr ⟨later, inPlace, found⟩)

end Tree

end ThreeAddress

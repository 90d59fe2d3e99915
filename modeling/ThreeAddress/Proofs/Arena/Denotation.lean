import ThreeAddress.Proofs.Arena.Links
import ThreeAddress.Proofs.Tree.Replacement
import Mathlib.Data.List.Perm.Subperm
import Mathlib.Order.WellFoundedSet
import Mathlib.Logic.Relation

/-!
The tree that an arena holds at a node.

Lists of children can be followed down from a node to a tree, if no node is below itself.
Where lists and links say the same, every node stands in that tree once.
-/

namespace ThreeAddress

open List

variable {α : Type}

namespace Arena

/-- An arena holds a tree if every node of it has its value and lists its children. -/
def Holds (arena : Arena α) (tree : Tree α) : Prop := tree.Every fun sub =>
    arena.valueOf? sub.id = some sub.value ∧ arena.childrenOf sub.id = sub.children.map Tree.id

/-- The links within a tree lead from every child to its parent. -/
def Linked (arena : Arena α) (tree : Tree α) : Prop :=
  tree.Every fun sub => ∀ child ∈ sub.children, arena.parentOf child.id = some sub.id

/-- One node lists another as its child. -/
def Lists (arena : Arena α) (parent child : Nat) : Prop := child ∈ arena.childrenOf parent

/-- No node that can be reached from a root is below itself. -/
def Acyclic (arena : Arena α) (root : Nat) : Prop :=
  ∀ id, Relation.ReflTransGen arena.Lists root id → ¬ Relation.TransGen arena.Lists id id

variable {arena after : Arena α} {id : Nat} {value : α} {tree : Tree α}

section

variable (same : after.get? id = arena.get? id)
include same

theorem valueOf?_congr :
    after.valueOf? id = arena.valueOf? id := by
  rw [valueOf?, valueOf?, same]

theorem childrenOf_congr :
    after.childrenOf id = arena.childrenOf id := by
  rw [childrenOf, childrenOf, same]

theorem parentOf_congr :
    after.parentOf id = arena.parentOf id := by
  rw [parentOf, parentOf, same]

end

theorem lt_size_of_valueOf? (valued : arena.valueOf? id = some value) : id < arena.size := by
  refine Nat.lt_of_not_le fun outside => ?_
  rw [valueOf?, get?_eq_none_iff.mpr outside] at valued
  cases valued

theorem holds_node {children : List (Tree α)} :
    arena.Holds (.node id value children) ↔ arena.valueOf? id = some value ∧
      arena.childrenOf id = children.map Tree.id ∧ ∀ child ∈ children, arena.Holds child :=
  Tree.every_node.trans and_assoc

theorem linked_node {children : List (Tree α)} :
    arena.Linked (.node id value children) ↔
      (∀ child ∈ children, arena.parentOf child.id = some id) ∧
        ∀ child ∈ children, arena.Linked child :=
  Tree.every_node

theorem Holds.child {tree child : Tree α} (holds : arena.Holds tree) (member : child ∈ tree.children) :
    arena.Holds child :=
  Tree.Every.child holds member

theorem Linked.child {tree child : Tree α} (linked : arena.Linked tree)
    (member : child ∈ tree.children) : arena.Linked child :=
  Tree.Every.child linked member

theorem every_congr {holds also : Tree α → Prop} (every : tree.Every holds)
    (kept : ∀ sub ∈ tree.subtrees, holds sub → also sub) : tree.Every also :=
  fun entry member => kept entry.2 (mem_map_of_mem member) (every entry member)

theorem Holds.congr (holds : arena.Holds tree)
    (values : ∀ id ∈ tree.ids, after.valueOf? id = arena.valueOf? id)
    (lists : ∀ id ∈ tree.ids, after.childrenOf id = arena.childrenOf id) : after.Holds tree := by
  refine every_congr holds fun sub member held => ?_
  have inside : sub.id ∈ tree.ids := mem_map_of_mem member
  rw [values _ inside, lists _ inside]
  exact held

theorem Consistent.linked_of_holds (consistent : arena.Consistent) (holds : arena.Holds tree) :
    arena.Linked tree := by
  refine every_congr holds fun sub _ held child member => ?_
  rw [← consistent.linked, held.2]
  exact mem_map_of_mem member

/-- A tree is held for as long as its nodes stay as they are. -/
theorem Holds.unchanged (holds : arena.Holds tree)
    (same : ∀ id ∈ tree.ids, after.get? id = arena.get? id) : after.Holds tree :=
  holds.congr (fun id inside => valueOf?_congr (same id inside))
    fun id inside => childrenOf_congr (same id inside)

/-- A tree is linked for as long as the links of the nodes below its root stay. -/
theorem Linked.congr (linked : arena.Linked tree)
    (same : ∀ id ∈ tree.innerIds, after.parentOf id = arena.parentOf id) : after.Linked tree := by
  induction tree using Tree.induct with
  | node id value children ih =>
    obtain ⟨here, below⟩ := linked_node.mp linked
    refine linked_node.mpr ⟨fun child member => ?_, fun child member => ?_⟩
    · rw [same _ (Tree.mem_innerIds member child.id_mem_ids)]
      exact here child member
    · exact ih child member (below child member) fun id inside =>
        same id (Tree.mem_innerIds member (Tree.mem_ids_of_inner inside))

theorem Holds.lt_size (holds : arena.Holds tree) : ∀ id ∈ tree.ids, id < arena.size := by
  intro id inside
  obtain ⟨sub, member, rfl⟩ := mem_map.mp inside
  obtain ⟨entry, listed, rfl⟩ := mem_map.mp member
  exact lt_size_of_valueOf? (holds entry listed).1

theorem Holds.exists_node (holds : arena.Holds tree) :
    ∃ node, arena.get? tree.id = some node ∧ node.value = tree.value ∧
      node.children = tree.children.map Tree.id := by
  cases tree with
  | node number value children =>
    obtain ⟨valued, listed, -⟩ := holds_node.mp holds
    rw [valueOf?] at valued
    rw [childrenOf] at listed
    obtain ⟨node, found, same⟩ := Option.map_eq_some_iff.mp valued
    rw [found] at listed
    exact ⟨node, found, same, listed⟩

theorem Holds.reachable (holds : arena.Holds tree) :
    ∀ id ∈ tree.ids, Relation.ReflTransGen arena.Lists tree.id id := by
  induction tree using Tree.induct with
  | node number value children ih =>
    obtain ⟨-, listed, below⟩ := holds_node.mp holds
    intro id inside
    rw [Tree.ids_eq] at inside
    rcases mem_cons.mp inside with rfl | isBelow
    · exact .refl
    · obtain ⟨child, isChild, ofChild⟩ := mem_flatMap.mp isBelow
      refine .head ?_ (ih child isChild (below child isChild) id ofChild)
      rw [Lists, show arena.childrenOf (Tree.node number value children).id = _ from listed]
      exact mem_map_of_mem isChild

theorem Holds.reachable_iff (holds : arena.Holds tree) :
    Relation.ReflTransGen arena.Lists tree.id id ↔ id ∈ tree.ids := by
  refine ⟨fun path => ?_, holds.reachable id⟩
  induction path with
  | refl => exact tree.id_mem_ids
  | tail _ listed ih =>
    -- A node of the tree lists only nodes of the tree.
    obtain ⟨sub, member, rfl⟩ := mem_map.mp ih
    obtain ⟨entry, isEntry, rfl⟩ := mem_map.mp member
    rw [Lists, (holds entry isEntry).2] at listed
    obtain ⟨child, isChild, rfl⟩ := mem_map.mp listed
    exact mem_map_of_mem (Tree.child_mem_subtrees member isChild)

theorem Holds.length_le {tree : Tree α} (holds : arena.Holds tree) (distinct : tree.ids.Nodup) :
    tree.ids.length ≤ arena.size := by
  have within : tree.ids ⊆ List.range arena.size := fun id inside =>
    mem_range.mpr (holds.lt_size id inside)
  simpa using (subperm_of_subset distinct within).length_le

/-- What is found out about the roots of some trees one by one. -/
theorem mapM_ids {β : Type} {answer : Nat → Except Fault β} {result : Tree α → β}
    {trees : List (Tree α)} (each : ∀ tree ∈ trees, answer tree.id = .ok (result tree)) :
    (trees.map Tree.id).mapM answer = .ok (trees.map result) := by
  induction trees with
  | nil => rfl
  | cons tree rest ih =>
    obtain ⟨here, later⟩ := forall_mem_cons.mp each
    rw [map_cons, mapM_cons, ih later, here]
    rfl

/-- The tree that an arena holds is read from it. -/
theorem Holds.treeFrom_eq (holds : arena.Holds tree) {bound : Nat}
    (enough : tree.ids.length ≤ bound) : arena.treeFrom bound tree.id = .ok tree := by
  induction tree using Tree.induct generalizing bound with
  | node number value children ih =>
    obtain ⟨bound, rfl, shorter⟩ := Tree.exists_less enough
    obtain ⟨-, -, below⟩ := holds_node.mp holds
    obtain ⟨found, isFound, valued, listed⟩ := holds.exists_node
    have read := mapM_ids fun child member => ih child member (below child member) (shorter child member)
    rw [Tree.children_node] at listed
    rw [Tree.value_node] at valued
    simp only [treeFrom, isFound, valued, listed, read, map_id']
    rfl

theorem exists_trees {holds : Tree α → Prop} {numbers : List Nat}
    (each : ∀ number ∈ numbers, ∃ tree : Tree α, tree.id = number ∧ holds tree) :
    ∃ trees : List (Tree α), trees.map Tree.id = numbers ∧ ∀ tree ∈ trees, holds tree := by
  induction numbers with
  | nil => exact ⟨[], rfl, by simp⟩
  | cons number rest ih =>
    obtain ⟨tree, rfl, held⟩ := each number mem_cons_self
    obtain ⟨trees, rfl, others⟩ := ih (forall_mem_cons.mp each).2
    exact ⟨tree :: trees, rfl, forall_mem_cons.mpr ⟨held, others⟩⟩

/-- One node is a child of another that can be reached. -/
def Under (arena : Arena α) (root child parent : Nat) : Prop :=
  arena.Lists parent child ∧ Relation.ReflTransGen arena.Lists root parent

namespace Consistent

variable (consistent : arena.Consistent) {root : Nat} (acyclic : arena.Acyclic root)
include consistent

variable {low one other : Nat}

theorem comparable (toOne : Relation.ReflTransGen arena.Lists one low)
    (toOther : Relation.ReflTransGen arena.Lists other low) :
    Relation.ReflTransGen arena.Lists one other ∨ Relation.ReflTransGen arena.Lists other one := by
  -- Going up there is no choice, since every node has one parent at most.
  have unique : Relator.RightUnique (Function.swap arena.Lists) :=
    fun _ _ _ first second => consistent.parent_unique first second
  rw [← Relation.reflTransGen_swap] at toOne toOther
  have upward := Relation.ReflTransGen.total_of_right_unique unique toOne toOther
  exact upward.symm.imp Relation.reflTransGen_swap.mp Relation.reflTransGen_swap.mp

include acyclic

theorem children_apart {id : Nat} (reached : Relation.ReflTransGen arena.Lists root id)
    (isOne : arena.Lists id one) (isOther : arena.Lists id other) (different : one ≠ other)
    (toOne : Relation.ReflTransGen arena.Lists one low)
    (toOther : Relation.ReflTransGen arena.Lists other low) : False := by
  -- If one child were below the other, their parent would be below itself.
  have cycle : ∀ {upper lower : Nat}, arena.Lists id upper → arena.Lists id lower → upper ≠ lower →
      Relation.ReflTransGen arena.Lists upper lower → False := by
    intro upper lower isUpper isLower apart path
    rcases Relation.ReflTransGen.cases_tail path with same | ⟨last, toLast, isLast⟩
    · exact apart same.symm
    · obtain rfl := consistent.parent_unique isLast isLower
      exact acyclic last reached (.head' isUpper toLast)
  rcases consistent.comparable toOne toOther with down | down
  · exact cycle isOne isOther different down
  · exact cycle isOther isOne different.symm down

theorem distinct_node {id : Nat} {value : α} {children : List (Tree α)}
    (reached : Relation.ReflTransGen arena.Lists root id)
    (holds : arena.Holds (.node id value children))
    (each : ∀ child ∈ children, child.ids.Nodup) :
    (Tree.node id value children).ids.Nodup := by
  obtain ⟨-, listed, below⟩ := holds_node.mp holds
  have lists : ∀ child ∈ children, arena.Lists id child.id := fun child member => by
    rw [Lists, listed]
    exact mem_map_of_mem member
  rw [Tree.ids_eq, nodup_cons]
  constructor
  · -- The node itself would be below itself.
    intro inside
    obtain ⟨child, isChild, ofChild⟩ := mem_flatMap.mp inside
    exact acyclic id reached (.head' (lists child isChild) ((below child isChild).reachable _ ofChild))
  · refine nodup_flatMap.mpr ⟨each, ?_⟩
    -- No node is below two children, which are different nodes as they are listed once each.
    have distinct : children.Pairwise fun one other => one.id ≠ other.id := by
      have numbers := consistent.distinct id
      rw [listed] at numbers
      exact pairwise_map.mp numbers
    refine distinct.imp_of_mem fun {one other} isOne isOther different low ofOne ofOther => ?_
    exact consistent.children_apart acyclic reached (lists one isOne) (lists other isOther) different
      ((below one isOne).reachable low ofOne) ((below other isOther).reachable low ofOther)

theorem nodup_ids {tree : Tree α} (reached : Relation.ReflTransGen arena.Lists root tree.id)
    (holds : arena.Holds tree) : tree.ids.Nodup := by
  induction tree using Tree.induct with
  | node id value children ih =>
    obtain ⟨-, listed, below⟩ := holds_node.mp holds
    refine consistent.distinct_node acyclic reached holds fun child member => ?_
    refine ih child member (reached.tail ?_) (below child member)
    rw [Lists, show arena.childrenOf (Tree.node id value children).id = _ from listed]
    exact mem_map_of_mem member

omit consistent in
/-- A node that can be reached is not below itself by way of nodes that can be reached. -/
theorem not_under_self (id : Nat) : ¬ Relation.TransGen (arena.Under root) id id := by
  intro cycle
  -- The last step of the cycle starts from a node that can be reached.
  have reached : Relation.ReflTransGen arena.Lists root id := by
    cases cycle with
    | single last => exact last.2
    | tail _ last => exact last.2
  refine acyclic id reached (Relation.transGen_swap.mp ?_)
  exact cycle.lift (fun number => number) fun _ _ under => under.1

/-- An arena without cycles holds a tree at its root, in which every node stands once. -/
theorem exists_holds (present : root < arena.size) :
    ∃ tree : Tree α, tree.id = root ∧ arena.Holds tree ∧ tree.ids.Nodup := by
  -- To be below is an order on nodes, and there are finitely many of them to go down through.
  have order : IsStrictOrder Nat (Relation.TransGen (arena.Under root)) :=
    { irrefl := not_under_self acyclic
      trans := fun _ _ _ first second => first.trans second }
  have descent : {id | id < arena.size}.WellFoundedOn (Relation.TransGen (arena.Under root)) :=
    (Set.finite_lt_nat arena.size).wellFoundedOn
  -- The trees of the children are put together at every node that can be reached, the lowest first.
  refine descent.induction (P := fun id => Relation.ReflTransGen arena.Lists root id →
    ∃ tree : Tree α, tree.id = id ∧ arena.Holds tree ∧ tree.ids.Nodup) present
    (fun id inside below reached => ?_) .refl
  have each : ∀ child ∈ arena.childrenOf id,
      ∃ tree : Tree α, tree.id = child ∧ arena.Holds tree ∧ tree.ids.Nodup :=
    fun child member => below child (consistent.child_lt member) (.single ⟨member, reached⟩)
      (reached.tail member)
  obtain ⟨children, numbers, held⟩ := exists_trees each
  obtain ⟨node, found⟩ : ∃ node, arena.get? id = some node :=
    Option.ne_none_iff_exists'.mp fun absent =>
      absurd (get?_eq_none_iff.mp absent) (Nat.not_le_of_lt inside)
  have holds : arena.Holds (.node id node.value children) :=
    holds_node.mpr ⟨by rw [valueOf?, found]; rfl, numbers.symm, fun child member => (held child member).1⟩
  exact ⟨_, rfl, holds, consistent.distinct_node acyclic reached holds fun child member =>
    (held child member).2⟩

end Consistent

/-- Where children come after their parents, no node is below itself. -/
theorem acyclic_of_later (later : ∀ parent < arena.size, ∀ child ∈ arena.childrenOf parent,
    parent < child) (root : Nat) : arena.Acyclic root := by
  intro id _ cycle
  -- Numbers rise along every path, and a cycle would lead back to the same number.
  have rises : Relation.TransGen (· < ·) id id := Relation.TransGen.mono
    (fun parent child listed => later parent (lt_size_of_mem_childrenOf listed) child listed) _ _ cycle
  rw [Relation.transGen_eq_self] at rises
  exact Nat.lt_irrefl id rises

/-- Whether lists and links say the same shows at the nodes that are there. -/
instance (arena : Arena α) : Decidable arena.Consistent :=
  decidable_of_iff ((∀ parent < arena.size, (arena.childrenOf parent).Nodup ∧
      ∀ child ∈ arena.childrenOf parent, arena.parentOf child = some parent) ∧
    ∀ child < arena.size, ∀ parent ∈ arena.parentOf child, child ∈ arena.childrenOf parent) (by
  constructor
  · -- A node that is not there has neither children nor a parent.
    rintro ⟨lists, links⟩
    refine ⟨fun child parent => ⟨fun member => ?_, fun linked => ?_⟩, fun parent => ?_⟩
    · exact (lists parent (lt_size_of_mem_childrenOf member)).2 child member
    · exact links child (lt_size_of_parentOf linked) parent linked
    · rcases Nat.lt_or_ge parent arena.size with inside | outside
      · exact (lists parent inside).1
      · rw [childrenOf, get?_eq_none_iff.mpr outside]
        exact nodup_nil
  · intro consistent
    exact ⟨fun parent _ => ⟨consistent.distinct parent, fun child =>
      (consistent.linked child parent).mp⟩, fun child _ parent =>
        (consistent.linked child parent).mpr⟩)

end Arena

/-- A view shows a tree if the arena holds it, every node once, and its links lead up to the root and no further. -/
structure Site.Shows (site : Site α) (tree : Tree α) : Prop where
  root : site.root = tree.id
  holds : site.arena.Holds tree
  linked : site.arena.Linked tree
  distinct : tree.ids.Nodup
  top : site.arena.parentOf tree.id = none

/-- The tree that a view shows is the one read from its root. -/
theorem Site.Shows.tree_eq {site : Site α} {tree : Tree α} (shows : site.Shows tree) :
    site.arena.tree site.root = .ok tree := by
  rw [shows.root]
  exact shows.holds.treeFrom_eq (Nat.le_succ_of_le (shows.holds.length_le shows.distinct))

end ThreeAddress

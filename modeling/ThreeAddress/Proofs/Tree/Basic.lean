import ThreeAddress.Tree.Basic

/-!
Trees node by node.

What holds of all nodes holds of the root and below each child, and the leaves are those of the children.
-/

namespace ThreeAddress

open List

namespace Tree

variable {α : Type}

@[simp]
theorem value_node (id : Nat) (value : α) (children : List (Tree α)) :
    (node id value children).value = value := rfl

@[simp]
theorem children_node (id : Nat) (value : α) (children : List (Tree α)) :
    (node id value children).children = children := rfl

/-- What a node has if all its children have it, every tree has. -/
theorem induct {motive : Tree α → Prop}
    (node : ∀ id value children, (∀ child ∈ children, motive child) →
      motive (.node id value children)) : ∀ tree, motive tree
  | .node id value children => node id value children fun child _ => induct node child
termination_by tree => sizeOf tree
decreasing_by
  rename_i member
  have smaller := sizeOf_lt_of_mem member
  simp only [Tree.node.sizeOf_spec]
  omega

/-- What holds of no trees, and of some trees if it holds of the children of the first and of the others, holds of all lists of trees. -/
theorem forest_induct {motive : List (Tree α) → Prop} (nil : motive [])
    (cons : ∀ id value children rest, motive children → motive rest →
      motive (.node id value children :: rest)) (trees : List (Tree α)) : motive trees := by
  have one : ∀ tree : Tree α, ∀ rest, motive rest → motive (tree :: rest) := by
    intro tree
    induction tree using induct with
    | node id value children ih =>
      intro rest behind
      refine cons id value children rest ?_ behind
      induction children with
      | nil => exact nil
      | cons child others inner =>
        exact ih child (by simp) others (inner (forall_mem_cons.mp ih).2)
  induction trees with
  | nil => exact nil
  | cons tree rest ih => exact one tree rest ih

theorem forestNodesFrom_eq (depth : Nat) (trees : List (Tree α)) :
    forestNodesFrom depth trees = trees.flatMap (nodesFrom depth) := by
  induction trees with
  | nil => rfl
  | cons tree rest ih => rw [forestNodesFrom, ih, flatMap_cons]

theorem nodesFrom_snd (tree : Tree α) : ∀ depth,
    (tree.nodesFrom depth).map Prod.snd = tree.nodes.map Prod.snd := by
  induction tree using induct with
  | node id value children ih =>
    -- Both sides list the children's nodes, and each child may be counted from anywhere.
    have below : ∀ depth, (forestNodesFrom depth children).map Prod.snd =
        children.flatMap fun child => child.nodes.map Prod.snd := by
      intro depth
      rw [forestNodesFrom_eq, map_flatMap, flatMap_def, flatMap_def,
        map_congr_left fun child member => ih child member depth]
    intro depth
    simp [nodes, nodesFrom, below]

theorem nodes_node (id : Nat) (value : α) (children : List (Tree α)) :
    (node id value children).nodes.map Prod.snd =
      node id value children :: children.flatMap fun child => child.nodes.map Prod.snd := by
  simp only [nodes, nodesFrom, forestNodesFrom_eq, map_cons, map_flatMap, nodesFrom_snd]

/-- A tree all nodes of which have a property, with what is below them. -/
def Every (holds : Tree α → Prop) (tree : Tree α) : Prop := ∀ entry ∈ tree.nodes, holds entry.2

theorem every_node {holds : Tree α → Prop} {id : Nat} {value : α} {children : List (Tree α)} :
    (node id value children).Every holds ↔
      holds (node id value children) ∧ ∀ child ∈ children, child.Every holds := by
  have listed : ∀ tree : Tree α, tree.Every holds ↔ ∀ below ∈ tree.nodes.map Prod.snd, holds below := by
    intro tree
    exact forall_mem_map.symm
  simp only [listed, nodes_node, mem_cons, forall_eq_or_imp, mem_flatMap,
    forall_exists_index, and_imp]
  exact ⟨fun ⟨here, below⟩ => ⟨here, fun child member found inside => below found child member inside⟩,
    fun ⟨here, below⟩ => ⟨here, fun found child member inside => below child member found inside⟩⟩

theorem Every.root {holds : Tree α → Prop} {tree : Tree α} (every : tree.Every holds) :
    holds tree := by
  cases tree with
  | node id value children => exact (every_node.mp every).1

theorem Every.child {holds : Tree α → Prop} {tree child : Tree α} (every : tree.Every holds)
    (member : child ∈ tree.children) : child.Every holds := by
  cases tree with
  | node id value children => exact (every_node.mp every).2 child member

theorem leaves_node (id : Nat) (value : α) (children : List (Tree α)) :
    (node id value children).leaves =
      if children.isEmpty then [node id value children] else children.flatMap leaves := by
  cases children with
  | nil => rfl
  | cons first rest =>
    rw [leaves, nodes_node, filter_cons, filter_flatMap]
    rfl

mutual

/-- A tree with the number of every node left out. -/
def unnumbered : Tree α → Tree α
  | node _ value children => node 0 value (unnumberedForest children)
termination_by structural tree => tree

/-- Some trees with the number of every node left out. -/
def unnumberedForest : List (Tree α) → List (Tree α)
  | [] => []
  | tree :: rest => unnumbered tree :: unnumberedForest rest
termination_by structural trees => trees

end

theorem unnumbered_node (id : Nat) (value : α) (children : List (Tree α)) :
    (node id value children).unnumbered = node 0 value (children.map unnumbered) := by
  have forest : ∀ trees : List (Tree α), unnumberedForest trees = trees.map unnumbered := by
    intro trees
    induction trees with
    | nil => rfl
    | cons tree rest ih => rw [unnumberedForest, ih, map_cons]
  rw [unnumbered, forest]

end Tree

end ThreeAddress

import ThreeAddress.Proofs.Syntax.Normalization

/-!
The normal form of a syntax tree.

One run of the passes removes below the root all that any of them looks for, and of the root itself what can be removed.
So another run changes nothing.
-/

namespace ThreeAddress

open List

namespace Tree

variable {α : Type} {replace : Replacement α}

/-- What holds of all that takes the place of a node, once its children have given way, holds of all nodes left. -/
theorem replaceForest_every {holds kept : Tree α → Prop}
    (each : ∀ id value children, holds (.node id value children) →
      (∀ child ∈ replaceForest replace children, child.Every kept) →
      ∀ chosen ∈ replace (.node id value (replaceForest replace children)), chosen.Every kept)
    {trees : List (Tree α)} (start : ∀ tree ∈ trees, tree.Every holds) :
    ∀ chosen ∈ replaceForest replace trees, chosen.Every kept := by
  induction trees using forest_induct with
  | nil => simp [replaceForest]
  | cons id value children rest below behind =>
    obtain ⟨⟨here, inside⟩, others⟩ := forall_mem_cons.mp start |>.imp_left every_node.mp
    rw [replaceForest, replaceBelow, forall_mem_append]
    exact ⟨each id value children here (below inside), behind others⟩

theorem replaceForest_self {trees : List (Tree α)}
    (fixed : ∀ tree ∈ trees, tree.Every fun node => replace node = [node]) :
    replaceForest replace trees = trees := by
  induction trees using forest_induct with
  | nil => rfl
  | cons id value children rest below behind =>
    obtain ⟨⟨here, inside⟩, others⟩ := forall_mem_cons.mp fixed |>.imp_left every_node.mp
    rw [replaceForest, replaceBelow, below inside, behind others, here, singleton_append]

/-- A root stays that stands for itself, or for anything but one node, if all nodes below it stay. -/
theorem replaceNodes_self {tree : Tree α}
    (fixed : ∀ child ∈ tree.children, child.Every fun node => replace node = [node])
    (root : ∀ only, replace tree = [only] → only = tree) : replaceNodes replace tree = tree := by
  obtain ⟨id, value, children⟩ := tree
  have below : replaceForest replace children = children := replaceForest_self fixed
  simp only [replaceNodes, replaceBelow, below]
  split
  · next only single => exact root only single
  · rfl

/-- What is left of a root: the one node that takes its place, or itself where there is no such node. -/
theorem replaceNodes_cases (replace : Replacement α) (tree : Tree α) :
    replace (replaceBelow replace tree) = [replaceNodes replace tree] ∨
      replaceNodes replace tree = replaceBelow replace tree ∧
        ∀ only, replace (replaceBelow replace tree) ≠ [only] := by
  unfold replaceNodes
  dsimp only
  split
  · next only single => exact .inl single
  · next several => exact .inr ⟨rfl, several⟩

/-- What holds of all nodes left below a root holds of those below the node in its place. -/
theorem replaceNodes_children {kept : Tree α → Prop} (chooses : Chooses replace) {tree : Tree α}
    (every : ∀ child ∈ replaceForest replace tree.children, child.Every kept) :
    ∀ child ∈ (replaceNodes replace tree).children, child.Every kept := by
  rw [← children_replaceBelow] at every
  rcases replaceNodes_cases replace tree with single | ⟨same, -⟩
  · have placed : replaceNodes replace tree ∈ replace (replaceBelow replace tree) := by simp [single]
    rcases chooses.cases placed with same | isChild
    · rwa [same]
    · exact fun child member => (every _ isChild).child member
  · rwa [same]

end Tree

namespace Normalizer

variable (normalizer : Normalizer)

/-- A node that is no wrapper. -/
def Plain (tree : SyntaxTree) : Prop := normalizer.isWrapper tree.value.symbol = false

/-- A node that is no wrapper and, unless it is a terminal, holds several nodes. -/
def Solid (tree : SyntaxTree) : Prop :=
  normalizer.Plain tree ∧ (tree.value.symbol.isTerminal = false → 2 ≤ tree.children.length)

/-- A node that holds one node in brackets. -/
def Grouped (tree : SyntaxTree) : Prop := ∃ first inner last, tree.children = [first, inner, last] ∧
    first.value.symbol.hasCategory normalizer.opening = true ∧
    last.value.symbol.hasCategory normalizer.closing = true

/-- A solid node that holds no node in brackets. -/
def Bare (tree : SyntaxTree) : Prop := normalizer.Solid tree ∧ ¬ normalizer.Grouped tree

/-- A tree in which no pass finds anything to remove. -/
structure Normal (tree : SyntaxTree) : Prop where
  below : ∀ child ∈ tree.children, child.Every normalizer.Bare
  root : tree.value.symbol.isTerminal = false → tree.children.length ≠ 1
  ungrouped : ¬ normalizer.Grouped tree

/-! What each pass makes of a node. -/

theorem unwrap_cases (tree : SyntaxTree) :
    normalizer.unwrap tree = [tree] ∧ normalizer.Plain tree ∨
      normalizer.unwrap tree = tree.children ∧ tree.value.symbol.isTerminal = false := by
  cases wrapper : normalizer.isWrapper tree.value.symbol with
  | false => exact .inl ⟨if_neg (Bool.eq_false_iff.mp wrapper), wrapper⟩
  | true =>
    refine .inr ⟨if_pos wrapper, ?_⟩
    cases symbol : tree.value.symbol with
    | nonterminal name => rfl
    | terminal name category => simp [symbol, isWrapper] at wrapper

theorem shrink_cases (tree : SyntaxTree) :
    shrink tree = [tree] ∧ (tree.value.symbol.isTerminal = false → 2 ≤ tree.children.length) ∨
      shrink tree = tree.children ∧ tree.value.symbol.isTerminal = false ∧
        tree.children.length < 2 := by
  obtain ⟨id, label, children⟩ := tree
  by_cases terminal : label.symbol.isTerminal = true
  · exact .inl ⟨if_pos terminal, fun nonterminal => absurd terminal (Bool.eq_false_iff.mp nonterminal)⟩
  · rcases Nat.lt_or_ge children.length 2 with few | several
    · refine .inr ⟨(if_neg terminal).trans ?_, Bool.eq_false_iff.mpr terminal, few⟩
      rcases children with _ | ⟨only, _ | ⟨second, rest⟩⟩
      · rfl
      · rfl
      · exact absurd few (by simp)
    · exact .inl ⟨shrink_several id label several, fun _ => several⟩

theorem ungroup_cases (tree : SyntaxTree) :
    normalizer.ungroup tree = [tree] ∧ ¬ normalizer.Grouped tree ∨
      ∃ first inner last, tree.children = [first, inner, last] ∧
        first.value.symbol.hasCategory normalizer.opening = true ∧
        last.value.symbol.hasCategory normalizer.closing = true ∧
        normalizer.ungroup tree = [inner] := by
  by_cases grouped : normalizer.Grouped tree
  · obtain ⟨first, inner, last, held, opens, closes⟩ := grouped
    exact .inr ⟨first, inner, last, held, opens, closes, by simp [ungroup, held, opens, closes]⟩
  · refine .inl ⟨?_, grouped⟩
    unfold ungroup
    split
    · next first inner last held =>
      exact if_neg fun both => grouped ⟨first, inner, last, held, Bool.and_eq_true_iff.mp both⟩
    · rfl

theorem unwrap_chooses : Tree.Chooses normalizer.unwrap := fun tree => by
  rcases normalizer.unwrap_cases tree with ⟨keeps, -⟩ | ⟨spreads, -⟩
  · exact .inl keeps
  · exact .inr (.inr (.inl spreads))

theorem shrink_chooses : Tree.Chooses shrink := fun tree => by
  rcases shrink_cases tree with ⟨keeps, -⟩ | ⟨spreads, -⟩
  · exact .inl keeps
  · exact .inr (.inr (.inl spreads))

theorem ungroup_chooses : Tree.Chooses normalizer.ungroup := fun tree => by
  rcases normalizer.ungroup_cases tree with ⟨keeps, -⟩ | ⟨first, inner, last, held, -, -, opened⟩
  · exact .inl keeps
  · exact .inr (.inr (.inr ⟨inner, by simp [held], opened⟩))

variable {normalizer} {tree : SyntaxTree}

theorem ungroup_eq_self (ungrouped : ¬ normalizer.Grouped tree) : normalizer.ungroup tree = [tree] := by
  rcases normalizer.ungroup_cases tree with ⟨keeps, -⟩ | ⟨first, inner, last, held, opens, closes, -⟩
  · exact keeps
  · exact absurd ⟨first, inner, last, held, opens, closes⟩ ungrouped

theorem Normal.normalize_eq (normal : normalizer.Normal tree) : normalizer.normalize tree = tree := by
  have unwrapped : normalizer.run .unwrap tree = tree := by
    refine Tree.replaceNodes_self (fun child member entry found => ?_) fun only single => ?_
    · exact if_neg (Bool.eq_false_iff.mp (normal.below child member entry found).1.1)
    · rcases normalizer.unwrap_cases tree with ⟨keeps, -⟩ | ⟨spreads, nonterminal⟩
      · exact singleton_inj.mp (single.symm.trans keeps)
      · exact absurd (by rw [← spreads, single]; rfl) (normal.root nonterminal)
  have shrunk : normalizer.run .shrink tree = tree := by
    refine Tree.replaceNodes_self (fun child member entry found => ?_) fun only single => ?_
    · rcases shrink_cases entry.2 with ⟨keeps, -⟩ | ⟨-, nonterminal, few⟩
      · exact keeps
      · exact absurd few (Nat.not_lt.mpr ((normal.below child member entry found).1.2 nonterminal))
    · rcases shrink_cases tree with ⟨keeps, -⟩ | ⟨spreads, nonterminal, -⟩
      · exact singleton_inj.mp (single.symm.trans keeps)
      · exact absurd (by rw [← spreads, single]; rfl) (normal.root nonterminal)
  have opened : normalizer.run .ungroup tree = tree := by
    refine Tree.replaceNodes_self (fun child member entry found => ?_) fun only single => ?_
    · exact ungroup_eq_self (normal.below child member entry found).2
    · exact singleton_inj.mp (single.symm.trans (ungroup_eq_self normal.ungrouped))
  rw [normalize, unwrapped, shrunk, opened]

/-! What each pass leaves. -/

/-- After the first pass no node below the root is a wrapper. -/
theorem unwrapForest_every (trees : List SyntaxTree) :
    ∀ chosen ∈ Tree.replaceForest normalizer.unwrap trees, chosen.Every normalizer.Plain := by
  have any : ∀ tree ∈ trees, tree.Every fun _ => True := fun _ _ _ _ => trivial
  refine Tree.replaceForest_every (fun id label children _ inside => ?_) any
  rcases normalizer.unwrap_cases (.node id label _) with ⟨keeps, plain⟩ | ⟨spreads, -⟩
  · rw [keeps, forall_mem_singleton]
    exact Tree.every_node.mpr ⟨plain, inside⟩
  · rwa [spreads]

variable {trees : List SyntaxTree}

/-- After the second pass all nodes below the root are solid. -/
theorem shrinkForest_every (plain : ∀ tree ∈ trees, tree.Every normalizer.Plain) :
    ∀ chosen ∈ Tree.replaceForest shrink trees, chosen.Every normalizer.Solid := by
  refine Tree.replaceForest_every (fun id label children isPlain inside => ?_) plain
  rcases shrink_cases (.node id label _) with ⟨keeps, several⟩ | ⟨spreads, -⟩
  · rw [keeps, forall_mem_singleton]
    exact Tree.every_node.mpr ⟨⟨isPlain, several⟩, inside⟩
  · rwa [spreads]

/-- After the third pass no node below the root holds a node in brackets. -/
theorem ungroupForest_every (solid : ∀ tree ∈ trees, tree.Every normalizer.Solid) :
    ∀ chosen ∈ Tree.replaceForest normalizer.ungroup trees, chosen.Every normalizer.Bare := by
  refine Tree.replaceForest_every (fun id label children isSolid inside => ?_) solid
  rcases normalizer.ungroup_cases (.node id label _) with ⟨keeps, ungrouped⟩ |
    ⟨first, inner, last, held, -, -, opened⟩
  · rw [keeps, forall_mem_singleton]
    refine Tree.every_node.mpr ⟨⟨⟨isSolid.1, fun nonterminal => ?_⟩, ungrouped⟩, inside⟩
    rw [Tree.children_node, ungroupForest_length]
    exact isSolid.2 nonterminal
  · rw [opened, forall_mem_singleton]
    exact inside inner (by rw [show Tree.replaceForest _ children = _ from held]; simp)

/-- After the second pass the root, if it is no terminal, does not hold exactly one node. -/
theorem shrink_root (plain : ∀ child ∈ tree.children, child.Every normalizer.Plain)
    (nonterminal : (normalizer.run .shrink tree).value.symbol.isTerminal = false) :
    (normalizer.run .shrink tree).children.length ≠ 1 := by
  have below := shrinkForest_every plain
  rw [← Tree.children_replaceBelow] at below
  rw [run] at nonterminal ⊢
  rcases Tree.replaceNodes_cases shrink tree with single | ⟨same, never⟩
  · have several : 2 ≤ (Tree.replaceNodes shrink tree).children.length := by
      rcases shrink_cases (Tree.replaceBelow shrink tree) with ⟨keeps, several⟩ | ⟨spreads, -⟩
      · rw [singleton_inj.mp (single.symm.trans keeps)] at nonterminal ⊢
        exact several nonterminal
      · exact (below _ (by simp [← spreads, single])).root.2 nonterminal
    omega
  · intro one
    rw [same] at one
    obtain ⟨only, held⟩ := length_eq_one_iff.mp one
    rcases shrink_cases (Tree.replaceBelow shrink tree) with ⟨keeps, -⟩ | ⟨spreads, -⟩
    · exact never _ keeps
    · exact never only (spreads.trans held)

/-- The three passes bring every tree into normal form. -/
theorem normalize_normal (tree : SyntaxTree) : normalizer.Normal (normalizer.normalize tree) := by
  have plain : ∀ child ∈ (normalizer.run .unwrap tree).children, child.Every normalizer.Plain :=
    Tree.replaceNodes_children normalizer.unwrap_chooses (unwrapForest_every tree.children)
  have root := shrink_root plain
  have solid : ∀ child ∈ (normalizer.run .shrink (normalizer.run .unwrap tree)).children,
      child.Every normalizer.Solid :=
    Tree.replaceNodes_children shrink_chooses (shrinkForest_every plain)
  rw [normalize]
  generalize normalizer.run .shrink (normalizer.run .unwrap tree) = shrunk at root solid ⊢
  obtain ⟨id, label, children⟩ := shrunk
  have bare := ungroupForest_every solid
  have count := normalizer.ungroupForest_length children
  rcases normalizer.ungroup_cases (.node id label (Tree.replaceForest normalizer.ungroup children)) with
    ⟨keeps, ungrouped⟩ | ⟨first, inner, last, held, -, -, opened⟩
  · rw [run, Tree.replaceNodes_eq (Tree.replaceForest_node .. |>.trans keeps)]
    exact ⟨bare, fun nonterminal one => root nonterminal (count.symm.trans one), ungrouped⟩
  · rw [run, Tree.replaceNodes_eq (Tree.replaceForest_node .. |>.trans opened)]
    rw [Tree.children_node] at bare held
    have inside : inner.Every normalizer.Bare := bare inner (by simp [held])
    refine ⟨fun child member => inside.child member, fun nonterminal one => ?_, inside.root.2⟩
    have several := inside.root.1.2 nonterminal
    omega

/--
Normalization brings every tree into normal form, and does nothing more to the result.

Below the root no wrapper and no non-terminal with fewer than two nodes is left, the root does not stay above a single node, and no node holds one node in brackets.
-/
theorem normalize_settled (normalizer : Normalizer) (tree : SyntaxTree) :
    normalizer.Normal (normalizer.normalize tree) ∧
      normalizer.normalize (normalizer.normalize tree) = normalizer.normalize tree :=
  ⟨normalize_normal tree, (normalize_normal tree).normalize_eq⟩

end Normalizer

end ThreeAddress

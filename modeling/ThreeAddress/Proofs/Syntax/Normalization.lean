import ThreeAddress.Proofs.Tree.Replacement
import ThreeAddress.Syntax.Normalizer

/-!
What normalization makes of a tree.

The three passes over a tree are one recursion: a node is replaced by what its children become, joined in one of three ways.
-/

namespace ThreeAddress

namespace Normalizer

variable (normalizer : Normalizer)

/-- What all passes make of some nodes. -/
def forest (trees : List SyntaxTree) : List SyntaxTree := Tree.replaceForest normalizer.ungroup
    (Tree.replaceForest shrink (Tree.replaceForest normalizer.unwrap trees))

theorem forest_append (first second : List SyntaxTree) :
    normalizer.forest (first ++ second) = normalizer.forest first ++ normalizer.forest second := by
  simp only [forest, Tree.replaceForest_append]

theorem forest_cons (tree : SyntaxTree) (rest : List SyntaxTree) :
    normalizer.forest (tree :: rest) = normalizer.forest [tree] ++ normalizer.forest rest :=
  normalizer.forest_append [tree] rest

theorem ungroup_length (tree : SyntaxTree) : (normalizer.ungroup tree).length = 1 := by
  unfold ungroup
  split
  · split <;> rfl
  · rfl

theorem ungroupForest_length (trees : List SyntaxTree) :
    (Tree.replaceForest normalizer.ungroup trees).length = trees.length := by
  induction trees with
  | nil => rfl
  | cons tree rest ih =>
    rw [Tree.replaceForest, List.length_append, ungroup_length, ih, List.length_cons, Nat.add_comm]

theorem isWrapper_terminal {symbol : Symbol} (terminal : symbol.isTerminal = true) :
    normalizer.isWrapper symbol = false := by
  cases symbol with
  | terminal name category => rfl
  | nonterminal name => cases terminal

variable {label : Label}

theorem forest_terminal (id : Nat) (terminal : label.symbol.isTerminal = true) :
    normalizer.forest [.node id label []] = [.node id label []] := by
  have stays : ∀ replace : Tree.Replacement Label, replace (.node id label []) = [.node id label []] →
      Tree.replaceForest replace [.node id label []] = [.node id label []] := by
    intro replace same
    rw [Tree.replaceForest_node, Tree.replaceForest, same]
  have unwrapped : normalizer.unwrap (.node id label []) = [.node id label []] := by
    simp [unwrap, Tree.value, normalizer.isWrapper_terminal terminal]
  have shrunk : shrink (.node id label []) = [.node id label []] := by
    simp [shrink, Tree.value, terminal]
  rw [forest, stays _ unwrapped, stays _ shrunk]
  exact stays _ rfl

theorem forest_wrapper (id : Nat) (children : List SyntaxTree)
    (wrapper : normalizer.isWrapper label.symbol = true) :
    normalizer.forest [.node id label children] = normalizer.forest children := by
  simp only [forest, Tree.replaceForest_node, unwrap, Tree.value, wrapper, if_true, Tree.children]

/-- What becomes of any other node: it stays only if it holds several nodes, without its brackets. -/
def close (id : Nat) (label : Label) : List SyntaxTree → List SyntaxTree
  | [] => []
  | [only] => [only]
  | several => normalizer.ungroup (.node id label several)

theorem unwrapForest_plain (id : Nat) (children : List SyntaxTree)
    (plain : normalizer.isWrapper label.symbol = false) :
    Tree.replaceForest normalizer.unwrap [.node id label children] =
      [.node id label (Tree.replaceForest normalizer.unwrap children)] := by
  rw [Tree.replaceForest_node, unwrap]
  exact if_neg (by simp [Tree.value, plain])

theorem shrink_several (id : Nat) (label : Label) {children : List SyntaxTree}
    (several : 2 ≤ children.length) :
    shrink (.node id label children) = [.node id label children] := by
  match children with
  | first :: second :: rest =>
    unfold shrink
    split <;> rfl

theorem forest_plain (id : Nat) (children : List SyntaxTree)
    (plain : normalizer.isWrapper label.symbol = false)
    (nonterminal : label.symbol.isTerminal = false) :
    normalizer.forest [.node id label children] =
      normalizer.close id label (normalizer.forest children) := by
  -- The second pass decides whether the node stays, and the third keeps the number of its children.
  unfold forest
  rw [normalizer.unwrapForest_plain id children plain, Tree.replaceForest_node]
  generalize Tree.replaceForest shrink (Tree.replaceForest normalizer.unwrap children) = shrunk
  have kept := normalizer.ungroupForest_length shrunk
  cases shrunk with
  | nil => simp [shrink, Tree.value, Tree.children, nonterminal, Tree.replaceForest, close]
  | cons first rest =>
    cases rest with
    | nil =>
      have stays : shrink (.node id label [first]) = [first] := by
        simp [shrink, Tree.value, Tree.children, nonterminal]
      obtain ⟨single, same⟩ := List.length_eq_one_iff.mp kept
      rw [stays, same, close]
    | cons second rest =>
      rw [shrink_several id label (by simp), Tree.replaceForest_node]
      generalize Tree.replaceForest normalizer.ungroup (first :: second :: rest) = several at kept ⊢
      cases several with
      | nil => cases kept
      | cons head tail =>
        cases tail with
        | nil => cases kept
        | cons next others => rfl

/-- A root that holds several nodes stays in place, so that all passes give what they give below. -/
theorem normalize_root (id : Nat) (children : List SyntaxTree)
    (plain : normalizer.isWrapper label.symbol = false)
    (several : 2 ≤ (normalizer.forest children).length) :
    normalizer.forest [.node id label children] =
      [normalizer.normalize (.node id label children)] := by
  have unwrapped := normalizer.unwrapForest_plain id children plain
  have shrunk : Tree.replaceForest shrink
      [.node id label (Tree.replaceForest normalizer.unwrap children)] =
      [.node id label (Tree.replaceForest shrink
        (Tree.replaceForest normalizer.unwrap children))] := by
    rw [Tree.replaceForest_node, shrink_several]
    rwa [forest, ungroupForest_length] at several
  obtain ⟨only, single⟩ := List.length_eq_one_iff.mp (normalizer.ungroupForest_length
    [.node id label (Tree.replaceForest shrink (Tree.replaceForest normalizer.unwrap children))])
  rw [forest, unwrapped, shrunk, single, normalize, run, run, run, Tree.replaceNodes_eq unwrapped,
    Tree.replaceNodes_eq shrunk, Tree.replaceNodes_eq single]

end Normalizer

end ThreeAddress

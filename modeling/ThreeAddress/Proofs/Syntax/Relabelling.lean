import ThreeAddress.Proofs.Syntax.Soundness
import ThreeAddress.Proofs.Syntax.Normalization

/-!
Parsing and normalizing do not look at handles.

Tokens that keep their categories, texts and places may refer to something else: the tree is the same tree with the other tokens in its leaves, and a failure is the same failure.
-/

namespace ThreeAddress

open List

namespace Tree

variable {α β : Type}

mutual

/-- A tree with other values in its nodes. -/
def map (change : α → β) : Tree α → Tree β
  | node id value children => node id (change value) (mapForest change children)
termination_by structural tree => tree

/-- Trees with other values in their nodes. -/
def mapForest (change : α → β) : List (Tree α) → List (Tree β)
  | [] => []
  | tree :: rest => map change tree :: mapForest change rest
termination_by structural trees => trees

end

section

variable (change : α → β)
include change

theorem mapForest_eq (trees : List (Tree α)) :
    mapForest change trees = trees.map (map change) := by
  induction trees with
  | nil => rfl
  | cons tree rest ih => rw [mapForest, ih, map_cons]

@[simp]
theorem map_node (id : Nat) (value : α) (children : List (Tree α)) :
    (node id value children).map change = node id (change value) (children.map (map change)) := by
  rw [map, mapForest_eq]

@[simp]
theorem id_map (tree : Tree α) : (tree.map change).id = tree.id := by
  cases tree; rfl

@[simp]
theorem value_map (tree : Tree α) : (tree.map change).value = change tree.value := by
  cases tree; rfl

@[simp]
theorem children_map (tree : Tree α) :
    (tree.map change).children = tree.children.map (map change) := by
  cases tree with
  | node id value children => rw [map_node]; rfl

end

section Natural

variable {change : α → β} {replace : Replacement α} {other : Replacement β}
  (natural : ∀ tree, other (tree.map change) = (replace tree).map (map change))
include natural

/-- A replacement that only moves nodes moves those with other values alike. -/
theorem replaceBelow_map (tree : Tree α) :
    replaceBelow other (tree.map change) = (replaceBelow replace tree).map change := by
  induction tree using induct with
  | node id value children ih =>
    -- Both sides replace the children one by one, and each child alike.
    rw [map_node, replaceBelow, replaceBelow, map_node, replaceForest_eq, replaceForest_eq,
      flatMap_map, map_flatMap]
    congr 1
    simp only [flatMap_def]
    refine congrArg List.flatten (map_congr_left fun child member => ?_)
    rw [ih child member, natural]

theorem replaceNodes_map (tree : Tree α) :
    replaceNodes other (tree.map change) = (replaceNodes replace tree).map change := by
  rw [replaceNodes, replaceNodes, replaceBelow_map natural, natural]
  cases replace (replaceBelow replace tree) with
  | nil => rfl
  | cons first rest => cases rest <;> rfl

end Natural

end Tree

namespace Arena

variable {α β : Type} {change : α → β} {arena : Arena α}

/-- An arena with other values in its nodes. -/
def map (change : α → β) (arena : Arena α) : Arena β :=
  { nodes := arena.nodes.map fun node => ⟨change node.value, node.parent, node.children⟩ }

theorem get?_map (id : Nat) : (arena.map change).get? id =
    (arena.get? id).map fun node => ⟨change node.value, node.parent, node.children⟩ := by
  rw [get?, map, getElem?_map, get?]

@[simp]
theorem size_map : (arena.map change).size = arena.size := by
  simp [size, map]

/-- A change of one node that does alike with other values. -/
theorem modify_map {id : Nat} {step : ArenaNode α → ArenaNode α} {other : ArenaNode β → ArenaNode β}
    (natural : ∀ node : ArenaNode α, other ⟨change node.value, node.parent, node.children⟩ =
      ⟨change (step node).value, (step node).parent, (step node).children⟩) :
    (arena.map change).modify id other = (arena.modify id step).map change := by
  simp only [modify, map, mk.injEq]
  refine ext_getElem? fun index => ?_
  simp only [getElem?_modify, getElem?_map]
  split
  · cases arena.nodes[index]? with
    | none => rfl
    | some node => simp [natural]
  · simp

theorem setValue_map (id : Nat) (value : α) :
    (arena.map change).setValue id (change value) = (arena.setValue id value).map change :=
  modify_map fun _ => rfl

theorem append_map (parent : Nat) (value : α) :
    (arena.map change).append parent (change value) = (arena.append parent value).map change := by
  have pushed : (arena.map change).push (change value) = (arena.push value).map change := by
    simp [push, map]
  have listed : (arena.map change).childrenOf parent = arena.childrenOf parent := by
    rw [childrenOf, get?_map, childrenOf]
    cases arena.get? parent <;> rfl
  have linked : ((arena.push value).map change).setParent arena.size (some parent) =
      ((arena.push value).setParent arena.size (some parent)).map change := modify_map fun _ => rfl
  rw [append, pushed, listed, size_map, linked]
  exact modify_map fun _ => rfl

theorem appendAll_map (parent : Nat) (values : List α) :
    (arena.map change).appendAll parent (values.map change) =
      Prod.map (·) (map change) (arena.appendAll parent values) := by
  induction values generalizing arena with
  | nil => rfl
  | cons value rest ih =>
    rw [map_cons, appendAll, append_map, ih, size_map, appendAll]
    rfl

theorem treeFrom_map (bound id : Nat) :
    (arena.map change).treeFrom bound id = (arena.treeFrom bound id).map (Tree.map change) := by
  induction bound generalizing id with
  | zero => rfl
  | succ bound ih =>
    rw [treeFrom, treeFrom, get?_map]
    cases arena.get? id with
    | none => rfl
    | some node =>
      have below : ∀ ids : List Nat, ids.mapM ((arena.map change).treeFrom bound) =
          (ids.mapM (arena.treeFrom bound)).map (List.map (Tree.map change)) := by
        intro ids
        induction ids with
        | nil => rfl
        | cons first rest ihRest =>
          rw [mapM_cons, mapM_cons, ih, ihRest]
          cases arena.treeFrom bound first with
          | error fault => rfl
          | ok tree => cases rest.mapM (arena.treeFrom bound) <;> rfl
      simp only [Option.map_some, below]
      cases node.children.mapM (arena.treeFrom bound) with
      | error fault => rfl
      | ok children => simp [bind, Except.bind, Except.map, pure, Except.pure]

end Arena

/-- A change of tokens that shows in nothing but their handles. -/
structure Token.Keeps (change : Token → Token) : Prop where
  category : ∀ token, (change token).category = token.category
  lexeme : ∀ token, (change token).lexeme = token.lexeme
  span : ∀ token, (change token).span = token.span

/-- A label with another token. -/
def Label.map (change : Token → Token) (label : Label) : Label :=
  { label with token := label.token.map change }

@[simp]
theorem Label.symbol_map (change : Token → Token) (label : Label) :
    (label.map change).symbol = label.symbol := rfl

/-- A reading of another token. -/
def Reading.map (change : Token → Token) (reading : Reading) : Reading :=
  { reading with outcome := reading.outcome.map change }

/-- A source of other tokens. -/
def TokenSource.map (change : Token → Token) (source : TokenSource) : TokenSource :=
  { readings := source.readings.map (Reading.map change), last := change source.last }

/-- The place in a source of other tokens, with those in the nodes. -/
def ParseState.map (change : Token → Token) (state : ParseState) : ParseState :=
  { token := change state.token
    source := state.source.map change
    arena := state.arena.map (Label.map change) }

/-- Normalizing looks only at the symbols of nodes. -/
theorem Normalizer.normalize_map (normalizer : Normalizer) (change : Token → Token)
    (tree : SyntaxTree) :
    normalizer.normalize (tree.map (Label.map change)) =
      (normalizer.normalize tree).map (Label.map change) := by
  have unwrapped : ∀ tree : SyntaxTree, normalizer.unwrap (tree.map (Label.map change)) =
      (normalizer.unwrap tree).map (Tree.map (Label.map change)) := by
    intro tree
    simp only [unwrap, Tree.value_map, Label.symbol_map, Tree.children_map]
    split <;> rfl
  have shrunk : ∀ tree : SyntaxTree, shrink (tree.map (Label.map change)) =
      (shrink tree).map (Tree.map (Label.map change)) := by
    intro tree
    simp only [shrink, Tree.value_map, Label.symbol_map, Tree.children_map]
    split
    · rfl
    · cases tree.children with
      | nil => rfl
      | cons first rest => cases rest <;> rfl
  have ungrouped : ∀ tree : SyntaxTree, normalizer.ungroup (tree.map (Label.map change)) =
      (normalizer.ungroup tree).map (Tree.map (Label.map change)) := by
    intro tree
    simp only [ungroup, Tree.children_map]
    -- Only a node with exactly three children may hold brackets.
    cases tree.children with
    | nil => rfl
    | cons first rest =>
      cases rest with
      | nil => rfl
      | cons inner rest =>
        cases rest with
        | nil => rfl
        | cons last rest =>
          cases rest with
          | nil =>
            simp only [map_cons, map_nil, Tree.value_map, Label.symbol_map]
            split <;> rfl
          | cons fourth rest => rfl
  -- Each pass is natural, and so are the three of them in a row.
  simp only [normalize, run]
  rw [Tree.replaceNodes_map unwrapped, Tree.replaceNodes_map shrunk, Tree.replaceNodes_map ungrouped]

namespace Parser

variable (parser : Parser) {change : Token → Token}

theorem request_map (source : TokenSource) :
    request (source.map change) =
      (request source).map (Prod.map change (TokenSource.map change)) := by
  obtain ⟨readings, last⟩ := source
  cases readings with
  | nil => rfl
  | cons reading rest =>
    obtain ⟨errors, outcome⟩ := reading
    cases outcome with
    | error cause => rfl
    | ok token => cases errors <;> rfl

variable (keeps : Token.Keeps change)
include keeps

theorem isEnd_map (token : Token) : (change token).isEnd = token.isEnd := by
  rw [Token.isEnd, Token.isEnd, keeps.category]

theorem mismatch_map (kind : Mismatch) (expected : Text) (token : Token) :
    parser.mismatch kind expected (change token) = parser.mismatch kind expected token := by
  have told : parser.found (change token) = parser.found token := by
    rw [found, found, isEnd_map keeps, keeps.lexeme, keeps.category]
  rw [mismatch, mismatch, told, keeps.span]

theorem matched_map (state : ParseState) (id : Nat) (name : Text) (token : Token)
    (source : TokenSource) :
    (state.map change).matched id name (change token) (source.map change) =
      (state.matched id name token source).map change := by
  simp only [ParseState.matched, ParseState.map, keeps.category, ← Arena.setValue_map]
  rfl

omit keeps in
theorem expanded_map (state : ParseState) (id : Nat) (production : Production) :
    (state.map change).expanded id production = (state.expanded id production).map change := by
  have bare : (production.body.map fun symbol => ({ symbol } : Label)) =
      (production.body.map fun symbol => ({ symbol } : Label)).map (Label.map change) := by
    rw [map_map]
    rfl
  have grown := @Arena.appendAll_map _ _ (Label.map change) state.arena id
    (production.body.map fun symbol => { symbol })
  rw [← bare] at grown
  simp only [ParseState.expanded, ParseState.map, grown]
  rfl

/-- A step does the same before other tokens, and fails with the same failure. -/
theorem step_map (stack : Stack) (state : ParseState) :
    parser.step stack (state.map change) =
      (parser.step stack state).map (Prod.map (fun stack => stack) (ParseState.map change)) := by
  have same : (state.map change).token.category = state.token.category := keeps.category _
  have ends : (state.map change).token.isEnd = state.token.isEnd := isEnd_map keeps _
  have told (kind : Mismatch) (name : Text) :
      parser.mismatch kind name (state.map change).token = parser.mismatch kind name state.token :=
    parser.mismatch_map keeps kind name state.token
  have asked : request (state.map change).source = _ := request_map state.source
  have moves := parser.step_moves stack state
  generalize parser.step stack state = result at moves ⊢
  cases moves with
  | done => rfl
  | ended id name category rest ended =>
    rw [step, if_pos (ends.trans ended), told]
    rfl
  | unexpected id name rest more other =>
    rw [step, ends, more, if_neg Bool.false_ne_true, same, if_pos other, told]
    rfl
  | unread id name rest more failed =>
    rw [← same, step_terminal id name rest (ends.trans more), asked, failed]
    rfl
  | matched id name rest more requested =>
    rw [← same, step_terminal id name rest (ends.trans more), asked, requested]
    simp only [Except.map, Prod.map, matched_map keeps]
  | refused id rest blank =>
    rw [step, same, blank, refusal, ends, told]
    rfl
  | expanded id rest predicted =>
    -- The table is asked with the same category, so it predicts the same production.
    rw [step_expand id (same ▸ predicted), expanded_map, numbered, ParseState.map, Arena.size_map]
    rfl

theorem run_map (bound : Nat) (stack : Stack) (state : ParseState) :
    parser.run bound stack (state.map change) =
      (parser.run bound stack state).map (ParseState.map change) := by
  induction bound generalizing stack state with
  | zero => cases stack <;> rfl
  | succ bound ih =>
    cases stack with
    | nil => rfl
    | cons entry rest =>
      rw [run_cons, run_cons, parser.step_map keeps]
      cases parser.step (entry :: rest) state with
      | error failure => rfl
      | ok next => exact ih next.1 next.2

theorem build_map (source : TokenSource) :
    parser.build (source.map change) =
      (parser.build source).map (Arena.map (Label.map change)) := by
  -- There are as many readings as before, so the bound on the steps is the same.
  have bound : parser.stepBound (source.map change) = parser.stepBound source := by
    simp [stepBound, depthBound, TokenSource.map]
  have asked := @request_map change source
  cases requested : request source with
  | error failure =>
    rw [requested] at asked
    simp [build, requested, asked, bind, Except.bind, Except.map]
  | ok read =>
    obtain ⟨token, rest⟩ := read
    rw [requested] at asked
    have ran : parser.run (parser.stepBound source) (parser.initial (change token) (rest.map change)).1
        (parser.initial (change token) (rest.map change)).2 = _ :=
      parser.run_map keeps (parser.stepBound source) (parser.initial token rest).1
        (parser.initial token rest).2
    rw [parser.build_requested requested, parser.build_requested asked, bound, ran]
    cases parser.run (parser.stepBound source) (parser.initial token rest).1
        (parser.initial token rest).2 with
    | error failure => rfl
    | ok last =>
      simp only [Except.map, ParseState.map, isEnd_map keeps, parser.mismatch_map keeps]
      split <;> rfl

theorem parse_map (source : TokenSource) :
    parser.parse (source.map change) =
      (parser.parse source).map (Tree.map (Label.map change)) := by
  simp only [parse, parser.build_map keeps]
  cases parser.build source with
  | error failure => rfl
  | ok arena =>
    have read : (arena.map (Label.map change)).tree 0 = (arena.tree 0).map (Tree.map (Label.map change)) := by
      rw [Arena.tree, Arena.size_map, Arena.treeFrom_map, Arena.tree]
    simp only [Except.map, bind, Except.bind, read]
    cases arena.tree 0 <;> rfl

end Parser

end ThreeAddress

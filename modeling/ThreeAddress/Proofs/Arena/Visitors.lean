import ThreeAddress.Proofs.Arena.Replacement

/-!
Asking a visitor for every node of a view does to the view what replacing the nodes of its tree does.

Main statement: every node is visited once, children before their parents, the view then holds the replaced tree, and around it only the list changes in which its root stood.
-/

namespace ThreeAddress

open Steps ThreeAddress.Tree List

variable {α : Type}

/-- A visitor looks only at the tree below a node, and answers with what takes its place. -/
def Visitor.Performs (visit : Visitor α) (replace : Replacement α) : Prop :=
  ∀ (site : Site α) (tree : Tree α), site.arena.Holds tree →
    (visit tree.id).run site = (.ok ((replace tree).map Tree.id), site)

namespace Edit

/-! What the single steps do. -/

@[simp]
theorem run_change (step : Arena α → Arena α) (site : Site α) :
    (change step).run site = (.ok (), { site with arena := step site.arena }) := rfl

variable {site : Site α} {id : Nat}

theorem run_locate (present : id < site.arena.size) :
    (locate (id : Int)).run site = (.ok id, site) := by
  show (get >>= fun site : Site α => if id < site.arena.size then
    (pure id : Edit α Nat) else throw (.noSuchNode id)).run site = _
  rw [run_bind, run_get]
  simp only [if_pos present, run_pure]

theorem run_node {found : ArenaNode α} (present : site.arena.get? id = some found) :
    (node (id : Int)).run site = (.ok found, site) := by
  have inside : id < site.arena.size := Nat.lt_of_not_le fun outside => by
    rw [Arena.get?_eq_none_iff.mpr outside] at present
    cases present
  simp only [node, run_bind, run_locate inside, run_get, present, run_pure]

theorem run_linkAll {parent : Option Nat} {ids : List Nat}
    (present : ∀ id ∈ ids, id < site.arena.size) :
    (linkAll parent ids).run site =
      (.ok (), { site with arena := site.arena.relink parent ids }) := by
  induction ids generalizing site with
  | nil => rfl
  | cons id rest ih =>
    obtain ⟨here, later⟩ := forall_mem_cons.mp present
    simp only [linkAll, run_bind, run_locate here, run_change]
    rw [ih (by simpa using later)]
    rfl

/-- A node gives up its old children and takes others. -/
def takeOver (id : Nat) (old new : List Nat) : Edit α Unit := do
  linkAll none old
  linkAll (some id) new
  change fun arena => arena.setChildren id new

theorem run_takeOver (id : Nat) {old new : List Nat}
    (oldPresent : ∀ child ∈ old, child < site.arena.size)
    (newPresent : ∀ child ∈ new, child < site.arena.size) :
    (takeOver id old new).run site =
      (.ok (), { site with arena := site.arena.adopt id old new }) := by
  rw [takeOver, run_bind, run_linkAll oldPresent]
  dsimp only
  rw [run_bind, run_linkAll (by simpa using newPresent)]
  rfl

/-- A node takes over what its children give way to, and is asked for after that. -/
theorem replaceNode_succ (visit : Visitor α) (bound id : Nat) :
    replaceNode visit (bound + 1) id = (do
      let before := (← node id).children
      let results ← before.mapM (replaceNode visit bound)
      takeOver id before (results.map Prod.fst).flatten
      let replacement ← visit id
      if id ≠ (← get).root ∧ id ∉ replacement then
        change fun arena => arena.cutOff id
      return (replacement, (results.map Prod.snd).flatten ++ [id])) := by
  simp only [replaceNode, takeOver, bind_assoc]
  rfl

/-! Below one node. -/

/-- What asking for one node does, where the root of the view is not below it. -/
def Replaces (visit : Visitor α) (replace : Replacement α) (bound : Nat) (tree : Tree α) : Prop :=
  ∀ site : Site α, site.arena.Holds tree → site.root ∉ tree.innerIds →
    ∃ middle, Arena.Settled replace tree site.arena middle ∧
      (replaceNode visit bound tree.id).run site =
        (.ok ((replace (replaceBelow replace tree)).map Tree.id, tree.postorder),
          { site with arena :=
              if tree.id ≠ site.root ∧ tree.id ∉ (replace (replaceBelow replace tree)).map Tree.id
              then middle.cutOff tree.id else middle })

variable {visit : Visitor α} {replace : Replacement α}

section Below

variable (chooses : Chooses replace)
include chooses

variable {bound : Nat}

/-- Trees side by side give way from left to right. -/
theorem replaces_forest {trees : List (Tree α)} (distinct : (trees.flatMap ids).Nodup)
    (each : ∀ tree ∈ trees, Replaces visit replace bound tree) (site : Site α)
    (holds : ∀ tree ∈ trees, site.arena.Holds tree) (above : site.root ∉ trees.flatMap ids) :
    ∃ results after, Arena.Rewritten replace trees site.arena after ∧
      ((trees.map Tree.id).mapM (replaceNode visit bound)).run site =
        (.ok results, { site with arena := after }) ∧
      (results.map Prod.fst).flatten = (replaceForest replace trees).map Tree.id ∧
      (results.map Prod.snd).flatten = forestPostorder trees := by
  induction trees generalizing site with
  | nil => exact ⟨[], site.arena, .nil, rfl, rfl, rfl⟩
  | cons tree rest ih =>
    obtain ⟨here, later⟩ := forall_mem_cons.mp each
    obtain ⟨holdsHere, holdsLater⟩ := forall_mem_cons.mp holds
    have apart := distinct
    rw [flatMap_cons] at apart above
    rw [mem_append, not_or] at above
    obtain ⟨own, others, disjoint⟩ := nodup_append.mp apart
    -- The root of the view is above all of them, so the first one may be cut off.
    have inner : site.root ∉ tree.innerIds := fun inside => above.1 (mem_ids_of_inner inside)
    have other : tree.id ≠ site.root := fun same => above.1 (same ▸ tree.id_mem_ids)
    obtain ⟨middle, settled, ran⟩ := here site holdsHere inner
    have present : tree.id < middle.size := by
      rw [settled.size]
      exact holdsHere.lt_size _ tree.id_mem_ids
    have first := settled.rewritten chooses own present
    obtain ⟨between, isBetween⟩ : ∃ between, between =
      if tree.id ∈ (replace (replaceBelow replace tree)).map Tree.id then middle
        else middle.cutOff tree.id := ⟨_, rfl⟩
    rw [← isBetween] at first
    have left : (replaceNode visit bound tree.id).run site =
        (.ok ((replace (replaceBelow replace tree)).map Tree.id, tree.postorder),
          { site with arena := between }) := by
      rw [ran, isBetween]
      simp only [other, ne_eq, not_false_eq_true, true_and, ite_not]
    -- What follows is as it was, since the trees have no number in common.
    obtain ⟨results, after, rewritten, ranLater, replacements, visited⟩ :=
      ih others later { site with arena := between } (fun next member => by
        refine (holdsLater next member).unchanged fun id inside => first.frame id ?_
        rw [flatMap_singleton]
        exact fun isHere => disjoint _ isHere _ (mem_flatMap.mpr ⟨next, member, inside⟩) rfl)
        above.2
    refine ⟨((replace (replaceBelow replace tree)).map Tree.id, tree.postorder) :: results, after,
      first.cons chooses distinct rewritten, ?_, ?_, ?_⟩
    · rw [map_cons, mapM_cons]
      simp only [run_bind, left, ranLater, run_pure]
    · rw [map_cons, flatten_cons, replacements, replaceForest, map_append]
    · rw [map_cons, flatten_cons, visited, forestPostorder]

theorem replaces_node (performs : visit.Performs replace) {tree : Tree α}
    (distinct : tree.ids.Nodup) (enough : tree.ids.length ≤ bound)
    : Replaces visit replace bound tree := by
  induction tree using Tree.induct generalizing bound with
  | node number value children ih =>
    obtain ⟨bound, rfl, shorter⟩ := exists_less enough
    intro site holds inner
    obtain ⟨-, -, below⟩ := Arena.holds_node.mp holds
    have others : (children.flatMap ids).Nodup := by
      rw [ids_eq] at distinct
      exact (nodup_cons.mp distinct).2
    -- Every child has fewer nodes, so the bound suffices for it.
    have each : ∀ child ∈ children, Replaces visit replace bound child := by
      intro child member
      exact ih child member ((nodup_flatMap.mp others).1 child member) (shorter child member)
    obtain ⟨results, between, rewritten, ran, replacements, visited⟩ :=
      replaces_forest chooses others each site below inner
    have settled := rewritten.settled chooses distinct holds
    obtain ⟨found, isFound, -, listed⟩ : ∃ found, site.arena.get? number = some found ∧
      found.value = value ∧ found.children = children.map Tree.id := holds.exists_node
    -- All nodes that are linked anew come from below the node.
    have old : ∀ id ∈ children.map Tree.id, id < between.size := by
      intro id member
      obtain ⟨child, isChild, rfl⟩ := mem_map.mp member
      rw [rewritten.size]
      exact (below child isChild).lt_size _ child.id_mem_ids
    have new : ∀ id ∈ (replaceForest replace children).map Tree.id, id < between.size := by
      intro id member
      obtain ⟨chosen, isChosen, rfl⟩ := mem_map.mp member
      exact (rewritten.holds chosen isChosen).lt_size _ chosen.id_mem_ids
    have taken : (takeOver number (children.map Tree.id)
        ((replaceForest replace children).map Tree.id)).run { site with arena := between } =
          (.ok (), ⟨between.adopt number (children.map Tree.id)
            ((replaceForest replace children).map Tree.id), site.root, site.current⟩) :=
      run_takeOver number old new
    generalize between.adopt number (children.map Tree.id)
      ((replaceForest replace children).map Tree.id) = middle at settled taken
    -- The visitor is asked once all below the node has settled.
    have asked := performs { site with arena := middle } _ settled.holds
    rw [id_replaceBelow] at asked
    refine ⟨middle, settled, ?_⟩
    generalize (replace (replaceBelow replace (.node number value children))).map Tree.id = answer
      at asked ⊢
    show (replaceNode visit (bound + 1) number).run site =
      (.ok (answer, forestPostorder children ++ [number]),
        ⟨if number ≠ site.root ∧ number ∉ answer then middle.cutOff number else middle,
          site.root, site.current⟩)
    simp only [Tree.id] at asked
    rw [replaceNode_succ]
    simp only [run_bind, run_node isFound, listed, ran, replacements, visited, taken, asked, run_get]
    split
    · simp only [run_bind, run_change, run_pure]
    · simp only [run_pure]

end Below

end Edit

/-! At the root of the view. -/

theorem Arena.position?_eq_idxOf {arena : Arena α} {child parent : Nat}
    (linked : arena.parentOf child = some parent) (listed : child ∈ arena.childrenOf parent) :
    arena.position? child = some ((arena.childrenOf parent).idxOf child) := by
  obtain ⟨place, found⟩ := Option.isSome_iff_exists.mp (isSome_idxOf?.mpr listed)
  rw [idxOf_eq_getD_idxOf?, found]
  simp [position?, linked, found]

/-- The parent of the root of a view, if there is one, lists it and is not below it. -/
def Site.Placed (site : Site α) (tree : Tree α) : Prop :=
  ∀ parent, site.arena.parentOf site.root = some parent →
    parent ∉ tree.ids ∧ site.root ∈ site.arena.childrenOf parent

theorem Arena.Consistent.placed {site : Site α} (consistent : site.arena.Consistent)
    (acyclic : site.arena.Acyclic site.root) {tree : Tree α} (isRoot : tree.id = site.root)
    (holds : site.arena.Holds tree) : site.Placed tree := by
  intro parent linked
  have listed := (consistent.linked site.root parent).mpr linked
  refine ⟨fun inside => ?_, listed⟩
  -- The parent of the root would be below itself if it were in the view.
  have reached := holds.reachable parent inside
  rw [isRoot] at reached
  exact acyclic site.root .refl (.tail' reached listed)

/-- What becomes of a view when the nodes of its tree are replaced. -/
structure Site.Replaced (replace : Replacement α) (tree : Tree α) (before after : Site α) : Prop where
  size : after.arena.size = before.arena.size
  root : after.root = (tree.replaceNodes replace).id
  holds : after.arena.Holds (tree.replaceNodes replace)
  distinct : (tree.replaceNodes replace).ids.Nodup
  linked : after.arena.Linked (tree.replaceNodes replace)
  parent : after.arena.parentOf after.root = before.arena.parentOf before.root
  /-- A node that is not among those in its own place is alone, the root of the view apart. -/
  alone : ∀ sub ∈ tree.subtrees, Dropped replace sub → sub.id ≠ after.root →
    after.arena.Alone sub.id
  /-- Around the view at most the parent of its root changes. -/
  outside : ∀ id, id ∉ tree.ids → before.arena.parentOf before.root ≠ some id →
    after.arena.get? id = before.arena.get? id
  /-- The parent lists the new root where it listed the old one. -/
  above : ∀ parent, before.arena.parentOf before.root = some parent →
    after.arena.get? parent = (before.arena.get? parent).map fun node =>
      { node with children := node.children.set (node.children.idxOf before.root) after.root }

namespace Edit

variable {visit : Visitor α} {replace : Replacement α}

theorem run_replaceRoot {site : Site α} {parent position : Option Nat} {id : Nat}
    (present : id < site.arena.size)
    (placed : ∀ above, parent = some above → above ≠ site.root ∧
      site.root ∈ site.arena.childrenOf above ∧
        position = some ((site.arena.childrenOf above).idxOf site.root)) :
    (replaceRoot (parent, position) id).run site =
      (.ok (), { site with arena := site.arena.succeed parent site.root id, root := id }) := by
  have linked : ∀ arena : Arena α, arena.size = site.arena.size →
      (linkAll parent [id]).run { site with arena } =
        (.ok (), { site with arena := arena.setParent id parent }) := by
    intro arena same
    rw [run_linkAll]
    · rfl
    · intro child member
      obtain rfl := mem_singleton.mp member
      exact same ▸ present
  cases parent with
  | none =>
    simp only [replaceRoot, run_bind, run_get, run_change]
    rw [linked _ (by simp)]
    rfl
  | some above =>
    obtain ⟨apart, listed, rfl⟩ := placed above rfl
    -- The place was found before the old root is cut off, and it is still the same behind that.
    have kept : (site.arena.cutOff site.root).childrenOf above = site.arena.childrenOf above :=
      Arena.childrenOf_congr (Arena.get?_cutOff _ apart)
    have within := idxOf_lt_length_of_mem listed
    rw [← kept] at within
    simp only [replaceRoot, run_bind, run_get, run_change]
    rw [← Arena.cutOff, ← kept, if_pos within]
    simp only [run_bind, run_change]
    rw [linked _ (by simp)]
    rfl

/-- Below the root of a view everything gives way, and the visitor then answers for the root. -/
theorem run_replaceNode_root (chooses : Chooses replace) (performs : visit.Performs replace)
    {site : Site α} {tree : Tree α} (isRoot : tree.id = site.root) (holds : site.arena.Holds tree)
    (distinct : tree.ids.Nodup) : ∃ middle, Arena.Settled replace tree site.arena middle ∧
      (replaceNode visit (site.arena.size + 1) site.root).run site =
        (.ok ((replace (replaceBelow replace tree)).map Tree.id, tree.postorder),
          { site with arena := middle }) := by
  have inner : site.root ∉ tree.innerIds := isRoot ▸ id_not_mem_inner distinct
  obtain ⟨middle, settled, ran⟩ := replaces_node chooses performs distinct
    (Nat.le_succ_of_le (holds.length_le distinct)) site holds inner
  refine ⟨middle, settled, ?_⟩
  -- The root of a view is never cut off here, whatever the visitor answers for it.
  rw [if_neg fun leaves => leaves.1 isRoot, isRoot] at ran
  exact ran

end Edit

namespace Site

section Roots

variable {replace : Replacement α} {tree : Tree α} {site : Site α} {middle : Arena α}
  (chooses : Chooses replace) (isRoot : tree.id = site.root) (distinct : tree.ids.Nodup)
  (placed : site.Placed tree) (settled : Arena.Settled replace tree site.arena middle)
include chooses isRoot distinct placed settled

theorem replaced_below (same : tree.replaceNodes replace = replaceBelow replace tree) :
    Replaced replace tree site { site with arena := middle } := by
  refine ⟨settled.size, ?_, ?_, ?_, ?_, ?_, ?_, ?_, ?_⟩
  · rw [same, id_replaceBelow, isRoot]
  · rw [same]
    exact settled.holds
  · rw [same]
    exact (replaceBelow_sublist chooses tree).nodup distinct
  · rw [same]
    exact settled.linked
  · exact isRoot ▸ settled.parent
  · intro sub member dropped other
    rcases mem_subtrees_cases member with rfl | ⟨child, isChild, inChild⟩
    · exact absurd isRoot other
    · exact settled.alone child isChild sub inChild dropped
  · exact fun id outside _ => settled.frame id outside
  · intro parent linked
    obtain ⟨outside, listed⟩ := placed parent linked
    rw [settled.frame parent outside]
    rw [Arena.childrenOf] at listed
    cases found : site.arena.get? parent with
    | none => rfl
    | some node =>
      rw [found] at listed
      have within : node.children.idxOf site.root < node.children.length :=
        idxOf_lt_length_of_mem listed
      -- The root is set where it already stands.
      have unchanged := set_getElem_self within
      rw [getElem_idxOf within] at unchanged
      simp [unchanged]

theorem replaced_child (present : site.root < site.arena.size) {only : Tree α}
    (isChild : only ∈ (replaceBelow replace tree).children)
    (same : tree.replaceNodes replace = only) :
    Replaced replace tree site { site with
      arena := middle.succeed (site.arena.parentOf site.root) site.root only.id, root := only.id } := by
  -- The new root and all below it were below the old one.
  have inner : ∀ id ∈ only.ids, id ∈ tree.innerIds := fun id inside =>
    mem_innerIds_of_replaceBelow chooses (mem_innerIds isChild inside)
  have rootApart : site.root ∉ tree.innerIds := isRoot ▸ id_not_mem_inner distinct
  have notRoot : ∀ id ∈ only.ids, id ≠ site.root := by
    rintro id inside rfl
    exact rootApart (inner _ inside)
  have notParent : ∀ id ∈ tree.ids, site.arena.parentOf site.root ≠ some id :=
    fun id inside linked => (placed id linked).1 inside
  have distinctOnly : only.ids.Nodup := by
    have below := (replaceBelow_sublist chooses tree).nodup distinct
    rw [ids_eq] at below
    exact (nodup_flatMap.mp (nodup_cons.mp below).2).1 only isChild
  have onlyPresent : only.id < middle.size :=
    (settled.holds.child isChild).lt_size _ only.id_mem_ids
  refine ⟨by simp [settled.size], ?_, ?_, ?_, ?_, ?_, ?_, ?_, ?_⟩
  · rw [same]
  · rw [same]
    exact (settled.holds.child isChild).congr (fun id _ => Arena.valueOf?_succeed) fun id inside =>
      Arena.childrenOf_succeed (notRoot id inside) (notParent id (mem_ids_of_inner (inner id inside)))
  · rw [same]
    exact distinctOnly
  · rw [same]
    refine (settled.linked.child isChild).congr fun id inside => ?_
    rw [Arena.parentOf_succeed (notRoot id (mem_ids_of_inner inside)) onlyPresent, if_neg]
    rintro rfl
    exact id_not_mem_inner distinctOnly inside
  · rw [Arena.parentOf_succeed (notRoot _ only.id_mem_ids) onlyPresent, if_pos rfl]
  · intro sub member dropped other
    rcases mem_subtrees_cases member with rfl | ⟨child, isOld, inChild⟩
    · rw [isRoot] at other ⊢
      exact Arena.succeed_alone (settled.size ▸ present) other
        (notParent _ (isRoot ▸ sub.id_mem_ids))
    · -- A node that was dropped further down is not touched again.
      have below : sub.id ∈ tree.innerIds := mem_innerIds isOld (mem_map_of_mem inChild)
      refine (settled.alone child isOld sub inChild dropped).unchanged ?_
      refine Arena.get?_succeed ?_ other (notParent _ (mem_ids_of_inner below))
      rintro isOldRoot
      exact rootApart (isOldRoot ▸ below)
  · intro id outside linked
    rw [Arena.get?_succeed _ _ linked, settled.frame id outside]
    · rintro rfl
      exact outside (isRoot ▸ tree.id_mem_ids)
    · rintro rfl
      exact outside (mem_ids_of_inner (inner _ only.id_mem_ids))
  · intro parent linked
    have outside := (placed parent linked).1
    rw [linked, Arena.get?_succeed_parent, settled.frame parent outside]
    · rintro rfl
      exact outside (isRoot ▸ tree.id_mem_ids)
    · rintro rfl
      exact outside (mem_ids_of_inner (inner _ only.id_mem_ids))

end Roots

end Site

namespace Edit

variable {visit : Visitor α} {replace : Replacement α}

theorem run_replaceNodes_placed (chooses : Chooses replace) (performs : visit.Performs replace)
    {site : Site α} {tree : Tree α} (isRoot : tree.id = site.root) (holds : site.arena.Holds tree)
    (distinct : tree.ids.Nodup) (placed : site.Placed tree) : ∃ after,
      (replaceNodes visit).run site = (.ok tree.postorder, after) ∧
        Site.Replaced replace tree site after := by
  obtain ⟨middle, settled, ran⟩ := run_replaceNode_root chooses performs isRoot holds distinct
  have stays := Site.replaced_below chooses isRoot distinct placed settled
  -- The root gives way only to a single node.
  cases answer : replace (replaceBelow replace tree) with
  | nil =>
    refine ⟨_, ?_, stays ?_⟩
    · simp only [replaceNodes, run_bind, run_get, ran, answer, map_nil, run_pure]
    · rw [Tree.replaceNodes, answer]
  | cons only rest =>
    cases rest with
    | cons second rest =>
      refine ⟨_, ?_, stays ?_⟩
      · simp only [replaceNodes, run_bind, run_get, ran, answer, map_cons, run_pure]
      · rw [Tree.replaceNodes, answer]
    | nil =>
      have same : tree.replaceNodes replace = only := by
        rw [Tree.replaceNodes, answer]
      rcases chooses.cases (answer ▸ mem_singleton_self only) with rfl | isChild
      · -- The only node is the root itself.
        refine ⟨_, ?_, stays same⟩
        simp only [replaceNodes, run_bind, run_get, ran, answer, map_cons, map_nil,
          id_replaceBelow, isRoot, ne_eq, not_true_eq_false, if_false, run_pure]
      · -- A child comes into the place of the root, which it cannot be itself.
        have other : only.id ≠ site.root := fun isOld => id_not_mem_inner distinct
          (mem_innerIds_of_replaceBelow chooses
            (isRoot.trans isOld.symm ▸ mem_innerIds isChild only.id_mem_ids))
        have present := (settled.holds.child isChild).lt_size _ only.id_mem_ids
        have succeeded : (replaceRoot (site.arena.parentOf site.root, site.arena.position? site.root)
            only.id).run { site with arena := middle } = _ :=
          run_replaceRoot present fun above linked => by
            obtain ⟨outside, listed⟩ := placed above linked
            rw [Arena.childrenOf_congr (settled.frame above outside)]
            refine ⟨?_, listed, Arena.position?_eq_idxOf linked listed⟩
            rintro rfl
            exact outside (isRoot ▸ tree.id_mem_ids)
        refine ⟨_, ?_, Site.replaced_child chooses isRoot distinct placed settled
          (isRoot ▸ holds.lt_size _ tree.id_mem_ids) isChild same⟩
        simp only [replaceNodes, run_bind, run_get, ran, answer, map_cons, map_nil, other,
          ne_eq, not_false_eq_true, if_true, succeeded, run_pure]

theorem run_replaceNodes (chooses : Chooses replace) (performs : visit.Performs replace)
    {site : Site α} (consistent : site.arena.Consistent) (acyclic : site.arena.Acyclic site.root)
    {tree : Tree α} (isRoot : tree.id = site.root) (holds : site.arena.Holds tree)
    (distinct : tree.ids.Nodup) : ∃ after,
      (replaceNodes visit).run site = (.ok tree.postorder, after) ∧
        Site.Replaced replace tree site after :=
  run_replaceNodes_placed chooses performs isRoot holds distinct
    (consistent.placed acyclic isRoot holds)

/-- Replacing the nodes of a view visits each of them once, children before their parents, and leaves the replaced tree in its place. -/
theorem replaceNodes_replaced (chooses : Chooses replace) (performs : visit.Performs replace)
    {site : Site α} (consistent : site.arena.Consistent) (present : site.root < site.arena.size)
    (acyclic : site.arena.Acyclic site.root) :
    ∃ tree after, tree.id = site.root ∧ site.arena.Holds tree ∧ tree.ids.Nodup ∧
      (replaceNodes visit).run site = (.ok tree.postorder, after) ∧
      Site.Replaced replace tree site after ∧
      ∀ id, Relation.ReflTransGen after.arena.Lists after.root id ↔
        id ∈ (tree.replaceNodes replace).ids := by
  obtain ⟨tree, isRoot, holds, distinct⟩ := consistent.exists_holds acyclic present
  obtain ⟨after, ran, replaced⟩ :=
    run_replaceNodes chooses performs consistent acyclic isRoot holds distinct
  refine ⟨tree, after, isRoot, holds, distinct, ran, replaced, fun id => ?_⟩
  rw [replaced.root]
  exact replaced.holds.reachable_iff

end Edit

/-! Visitors that look at the value of a node. -/

/-- What a visitor may answer for a node. -/
inductive Choice where
  | keep
  | drop
  | spread
  | pick (index : Nat)
deriving DecidableEq, Repr

namespace Choice

/-- The nodes that are chosen. A child that is not there is dropped. -/
def nodes {β : Type} (node : β) (children : List β) : Choice → List β
  | keep => [node]
  | drop => []
  | spread => children
  | pick index => children[index]?.toList

theorem map_nodes {β γ : Type} (of : β → γ) (node : β) (children : List β) (choice : Choice) :
    (choice.nodes node children).map of = choice.nodes (of node) (children.map of) := by
  cases choice with
  | keep => rfl
  | drop => rfl
  | spread => rfl
  | pick index =>
    rw [nodes, nodes, getElem?_map]
    cases children[index]? <;> rfl

/-- The replacement that chooses by the value of a node. -/
def replacement (choose : α → Choice) : Replacement α := fun tree =>
  (choose tree.value).nodes tree tree.children

def visitor (choose : α → Choice) : Visitor α := fun id => do
  let found ← Edit.node id
  return (choose found.value).nodes id found.children

theorem replacement_chooses (choose : α → Choice) : Chooses (replacement choose) := by
  intro tree
  rw [replacement]
  cases choose tree.value with
  | keep => exact .inl rfl
  | drop => exact .inr (.inl rfl)
  | spread => exact .inr (.inr (.inl rfl))
  | pick index =>
    cases found : tree.children[index]? with
    | none => exact .inr (.inl (by rw [nodes, found]; rfl))
    | some child =>
      exact .inr (.inr (.inr ⟨child, mem_of_getElem? found, by rw [nodes, found]; rfl⟩))

theorem visitor_performs (choose : α → Choice) :
    (visitor choose).Performs (replacement choose) := by
  intro site tree holds
  obtain ⟨found, isFound, valued, listed⟩ := holds.exists_node
  rw [visitor, run_bind, Edit.run_node isFound, replacement, map_nodes, ← valued, ← listed]
  rfl

end Choice

namespace Edit

/-- A view below the first child of a root, whose second child is outside of it. -/
def nestedView : Site Nat where
  arena := ⟨[⟨9, none, [1, 6]⟩, ⟨2, some 0, [2, 5]⟩, ⟨0, some 1, [3, 4]⟩, ⟨5, some 2, []⟩,
    ⟨1, some 2, []⟩, ⟨7, some 1, []⟩, ⟨8, some 0, []⟩]⟩
  root := 1
  current := 1

/-- Spreads zeros, drops ones, puts their first child in the place of twos, and keeps all else. -/
def byDigit : Nat → Choice
  | 0 => .spread
  | 1 => .drop
  | 2 => .pick 0
  | _ => .keep

/-- In the nested view one node is dropped, one spread, and the root gives way to a node from two levels below it. -/
theorem replaceNodes_replaced_nested :
    (((replaceNodes (Choice.visitor byDigit)).run nestedView).2.root = 3) ∧
    ∃ tree after, tree.id = nestedView.root ∧ nestedView.arena.Holds tree ∧ tree.ids.Nodup ∧
      (replaceNodes (Choice.visitor byDigit)).run nestedView = (.ok tree.postorder, after) ∧
      Site.Replaced (Choice.replacement byDigit) tree nestedView after ∧
      ∀ id, Relation.ReflTransGen after.arena.Lists after.root id ↔
        id ∈ (tree.replaceNodes (Choice.replacement byDigit)).ids :=
  ⟨by decide, replaceNodes_replaced (Choice.replacement_chooses byDigit)
    (Choice.visitor_performs byDigit) (by decide) (by decide)
    (Arena.acyclic_of_later (by decide) _)⟩

end Edit

end ThreeAddress

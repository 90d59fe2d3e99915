import ThreeAddress.Proofs.Arena.Ownership
import ThreeAddress.Proofs.Arena.Visitors

/-!
Going down from a node comes to an end exactly where no node is below itself.

A walk and a replacement go down with a bound on the depth, which in a tree is never reached.
-/

namespace ThreeAddress

open Steps ThreeAddress.Tree List

variable {α β : Type}

/-- The numbers of the nodes in pre-order, each with its depth. What is below a node that is not to be entered is left out. -/
def Tree.visits (enters : α → Bool) (depth : Nat) : Tree α → List (Nat × Nat)
  | node number value children =>
    (number, depth) ::
      if enters value then (children.map (visits enters (depth + 1))).flatten else []

namespace Arena

variable {arena after : Arena α}

/-! Walks. -/

theorem exists_eq_ok_of_mapM {answer : Nat → Except Fault β} {numbers : List Nat} {results : List β}
    (answered : numbers.mapM answer = .ok results) :
    ∀ number ∈ numbers, ∃ result, answer number = .ok result := by
  induction numbers generalizing results with
  | nil => simp
  | cons number rest ih =>
    rw [mapM_cons] at answered
    cases here : answer number with
    | error fault => rw [here] at answered; cases answered
    | ok first =>
      cases later : rest.mapM answer with
      | error fault => rw [here, later] at answered; cases answered
      | ok others => exact forall_mem_cons.mpr ⟨⟨first, here⟩, ih later⟩

variable {tree : Tree α} {root : Nat} {bound : Nat}

/-- A walk down a tree visits its nodes in pre-order, with those left out that are not to be entered. -/
theorem Holds.walkFrom_eq (enters : α → Bool) (holds : arena.Holds tree)
    (enough : tree.ids.length ≤ bound) (depth : Nat) :
    arena.walkFrom enters bound depth tree.id = .ok (tree.visits enters depth) := by
  induction tree using Tree.induct generalizing bound depth with
  | node number value children ih =>
    obtain ⟨bound, rfl, shorter⟩ := exists_less enough
    obtain ⟨-, -, below⟩ := holds_node.mp holds
    obtain ⟨found, isFound, valued, listed⟩ := holds.exists_node
    have walked := mapM_ids fun child member =>
      ih child member (below child member) (shorter child member) (depth + 1)
    rw [children_node] at listed
    rw [value_node] at valued
    simp only [walkFrom, isFound, valued, listed, walked, visits]
    split
    · rfl
    · rfl

/-- A walk that enters all and comes to an end meets no node that is below itself. -/
theorem acyclic_of_walkFrom {depth : Nat} {visits : List (Nat × Nat)}
    (walked : arena.walkFrom (fun _ => true) bound depth root = .ok visits) :
    arena.Acyclic root := by
  induction bound generalizing depth root visits with
  | zero => cases walked
  | succ bound ih =>
    rw [walkFrom] at walked
    cases found : arena.get? root with
    | none => rw [found] at walked; cases walked
    | some node =>
      have lists : arena.childrenOf root = node.children := by rw [childrenOf, found]; rfl
      rw [found] at walked
      simp only [if_true] at walked
      cases every : node.children.mapM (arena.walkFrom (fun _ => true) bound (depth + 1)) with
      | error fault => rw [every] at walked; cases walked
      | ok below =>
        have beneath : ∀ child, arena.Lists root child → arena.Acyclic child := by
          intro child listed
          rw [Lists, lists] at listed
          obtain ⟨visits, walked⟩ := exists_eq_ok_of_mapM every child listed
          exact ih walked
        intro id reached cycle
        -- A cycle through the root itself passes a child of it, which is on the cycle too.
        rcases reached.cases_head with rfl | ⟨child, listed, toId⟩
        · rcases Relation.TransGen.head'_iff.mp cycle with ⟨child, listed, back⟩
          exact beneath child listed root back cycle
        · exact beneath child listed id toId cycle

/-- In an arena without cycles a walk may leave out what it likes. -/
theorem Consistent.exists_walk (consistent : arena.Consistent) (acyclic : arena.Acyclic root)
    (present : root < arena.size) (enters : α → Bool) :
    ∃ visits, arena.walk root enters = .ok visits := by
  obtain ⟨tree, rfl, holds, distinct⟩ := consistent.exists_holds acyclic present
  exact ⟨_, holds.walkFrom_eq enters (Nat.le_succ_of_le (holds.length_le distinct)) 0⟩

/-- Where nodes are owned once, a walk comes to an end exactly if it meets no node that is below itself. -/
theorem Consistent.exists_walk_iff (consistent : arena.Consistent) (present : root < arena.size) :
    (∃ visits, arena.walk root = .ok visits) ↔ arena.Acyclic root := by
  constructor
  · rintro ⟨visits, walked⟩
    exact acyclic_of_walkFrom walked
  · intro acyclic
    exact consistent.exists_walk acyclic present fun _ => true

theorem Consistent.exists_leaves (consistent : arena.Consistent) (acyclic : arena.Acyclic root)
    (present : root < arena.size) : ∃ leaves, arena.leaves root = .ok leaves := by
  obtain ⟨visits, walked⟩ := consistent.exists_walk acyclic present fun _ => true
  exact ⟨_, by rw [leaves, walked]; rfl⟩

/-! Replacements, in which values may change on the way. -/

theorem childrenOf_setChildren_of_ne {id other : Nat} (apart : other ≠ id) (children : List Nat) :
    (arena.setChildren id children).childrenOf other = arena.childrenOf other := by
  rw [childrenOf, setChildren, get?_modify, if_neg apart, childrenOf]

/-- The nodes of a tree list their children, whatever their values are. -/
def Spans (arena : Arena α) (tree : Tree α) : Prop :=
  tree.Every fun sub => arena.childrenOf sub.id = sub.children.map Tree.id

theorem Holds.spans (holds : arena.Holds tree) : arena.Spans tree :=
  every_congr holds fun _ _ held => held.2

theorem Spans.congr (spans : arena.Spans tree)
    (lists : ∀ id ∈ tree.ids, after.childrenOf id = arena.childrenOf id) : after.Spans tree := by
  refine every_congr spans fun sub member listed => ?_
  rw [lists _ (mem_map_of_mem member)]
  exact listed

end Arena

namespace Edit

/-- A step that is not cut short by the bound on the depth, and changes lists of children only at some nodes. -/
structure Ends (step : Edit α β) (site : Site α) (changed : Nat → Prop) : Prop where
  bounded : (step.run site).1 ≠ .error .cyclicTree
  lists : ∀ id, ¬ changed id → (step.run site).2.arena.childrenOf id = site.arena.childrenOf id

section Ends

variable {γ : Type} {site : Site α} {changed : Nat → Prop}

theorem ends_pure {value : β} : Ends (pure value) site changed := ⟨nofun, fun _ _ => rfl⟩

variable {fault : Fault}

theorem ends_throw (other : fault ≠ .cyclicTree) : Ends (throw fault : Edit α β) site changed :=
  ⟨fun same => other (Except.error.inj same), fun _ _ => rfl⟩

theorem ends_modify {step : Site α → Site α}
    (kept : ∀ id, ¬ changed id → (step site).arena.childrenOf id = site.arena.childrenOf id) :
    Ends (modify step) site changed :=
  ⟨nofun, kept⟩

theorem Ends.bind {first : Edit α β} {next : β → Edit α γ} (ends : Ends first site changed)
    (continues : ∀ value after, first.run site = (.ok value, after) →
      Ends (next value) after changed) : Ends (first >>= next) site changed := by
  obtain ⟨bounded, lists⟩ := ends
  cases ran : first.run site with
  | mk result after =>
    rw [ran] at bounded lists
    have both := run_bind first next site
    rw [ran] at both
    cases result with
    | error fault =>
      refine ⟨fun same => bounded ?_, by rw [both]; exact lists⟩
      rw [both] at same
      rw [Except.error.inj same]
    | ok value =>
      have later := continues value after ran
      refine ⟨by rw [both]; exact later.bounded, fun id outside => ?_⟩
      rw [both, ← lists id outside]
      exact later.lists id outside

theorem ends_throw_bind {next : β → Edit α γ} (other : fault ≠ .cyclicTree) :
    Ends (throw fault >>= next) site changed := by
  refine Ends.bind (ends_throw other) fun _ _ ran => ?_
  cases ran

theorem ends_get_bind {next : Site α → Edit α β} (continues : Ends (next site) site changed) :
    Ends (get >>= next) site changed := by
  refine Ends.bind ⟨nofun, fun _ _ => rfl⟩ fun value after ran => ?_
  cases ran
  exact continues

theorem Ends.mono {step : Edit α β} {more : Nat → Prop} (ends : Ends step site changed)
    (within : ∀ id, changed id → more id) : Ends step site more :=
  ⟨ends.bounded, fun id outside => ends.lists id fun inside => outside (within id inside)⟩

end Ends

variable {site : Site α} {changed : Nat → Prop}

theorem locate_ends {id : Int} : Ends (locate id) site changed := by
  cases id with
  | negSucc id => exact ends_throw nofun
  | ofNat id =>
    refine ends_get_bind ?_
    split
    · exact ends_pure
    · exact ends_throw nofun

variable {id : Nat}

theorem ends_node_bind {next : ArenaNode α → Edit α β}
    (continues : ∀ found, found.children = site.arena.childrenOf id → Ends (next found) site changed) :
    Ends (node id >>= next) site changed := by
  simp only [node, bind_assoc]
  refine Ends.bind locate_ends fun index after ran => ?_
  obtain ⟨rfl, -, same⟩ := locate_ensures _ _ ran
  obtain rfl := Int.ofNat.inj same
  refine ends_get_bind ?_
  cases found : after.arena.get? id with
  | none => exact ends_throw_bind (by simp)
  | some node =>
    rw [pure_bind]
    exact continues node (by rw [Arena.childrenOf, found]; rfl)

theorem linkAll_ends {parent : Option Nat} {ids : List Nat} :
    Ends (linkAll parent ids) site changed := by
  induction ids generalizing site with
  | nil => exact ends_pure
  | cons id rest ih =>
    refine Ends.bind locate_ends fun index after _ => ?_
    refine Ends.bind (ends_modify fun other _ => ?_) fun _ _ _ => ih
    exact Arena.childrenOf_setParent ..

theorem ends_setChildren {children : List Nat} (counted : changed id) :
    Ends (change fun arena => arena.setChildren id children) site changed := by
  refine ends_modify fun other outside => ?_
  have apart : other ≠ id := fun same => outside (same ▸ counted)
  exact Arena.childrenOf_setChildren_of_ne apart children

theorem takeOver_ends {old new : List Nat} (counted : changed id) :
    Ends (takeOver id old new) site changed :=
  Ends.bind linkAll_ends fun _ _ _ => Ends.bind linkAll_ends fun _ _ _ => ends_setChildren counted

theorem cutOff_ends (counted : changed id) :
    Ends (change fun arena => arena.cutOff id) site changed := by
  refine ends_modify fun other outside => ?_
  have apart : other ≠ id := fun same => outside (same ▸ counted)
  exact Arena.childrenOf_congr (Arena.get?_cutOff id apart)

end Edit

/-- A visitor that comes to an end itself and changes no list of children. It may change values and make nodes. -/
def Visitor.Modest (visit : Visitor α) : Prop := ∀ id site, Edit.Ends (visit id) site fun _ => False

namespace Edit

variable {visit : Visitor α} {bound : Nat}

/-- Trees side by side give way one after the other, each of them apart from the rest. -/
theorem replaceNode_forest_ends {trees : List (Tree α)} (distinct : (trees.flatMap ids).Nodup)
    (each : ∀ tree ∈ trees, ∀ site : Site α, site.arena.Spans tree →
      Ends (replaceNode visit bound tree.id) site (· ∈ tree.ids)) (site : Site α)
    (spans : ∀ tree ∈ trees, site.arena.Spans tree) :
    Ends ((trees.map Tree.id).mapM (replaceNode visit bound)) site (· ∈ trees.flatMap ids) := by
  induction trees generalizing site with
  | nil => exact ends_pure
  | cons tree rest ih =>
    obtain ⟨here, later⟩ := forall_mem_cons.mp each
    obtain ⟨spansHere, spansLater⟩ := forall_mem_cons.mp spans
    rw [flatMap_cons] at distinct ⊢
    obtain ⟨-, others, disjoint⟩ := nodup_append.mp distinct
    have first := here site spansHere
    rw [map_cons, mapM_cons]
    refine Ends.bind (first.mono fun id inside => mem_append_left _ inside) ?_
    intro result after ran
    -- What follows is listed as before, since the trees have no number in common.
    have kept := first.lists
    rw [ran] at kept
    have still : ∀ next ∈ rest, after.arena.Spans next := fun next member =>
      (spansLater next member).congr fun id inside => kept id fun isHere =>
        disjoint _ isHere _ (mem_flatMap.mpr ⟨next, member, inside⟩) rfl
    refine Ends.bind ((ih others later after still).mono
      fun id inside => mem_append_right _ inside) ?_
    exact fun _ _ _ => ends_pure

/-- Every node gives way once what is below it has, and lists change only there. -/
theorem replaceNode_ends (modest : visit.Modest) {tree : Tree α} (distinct : tree.ids.Nodup)
    (enough : tree.ids.length ≤ bound) :
    ∀ site : Site α, site.arena.Spans tree →
      Ends (replaceNode visit bound tree.id) site (· ∈ tree.ids) := by
  induction tree using Tree.induct generalizing bound with
  | node number value children ih =>
    intro site spans
    obtain ⟨bound, rfl, shorter⟩ := exists_less enough
    have split : (Tree.node number value children).ids = number :: children.flatMap ids := ids_eq _
    rw [split] at distinct ⊢
    obtain ⟨-, others⟩ := nodup_cons.mp distinct
    obtain ⟨listed, below⟩ := Tree.every_node.mp spans
    have each : ∀ child ∈ children, ∀ site : Site α, site.arena.Spans child →
        Ends (replaceNode visit bound child.id) site (· ∈ child.ids) := by
      intro child member
      exact ih child member ((nodup_flatMap.mp others).1 child member) (shorter child member)
    rw [replaceNode_succ]
    refine ends_node_bind fun found isFound => ?_
    rw [isFound, show site.arena.childrenOf (Tree.node number value children).id = _ from listed]
    -- The children, the lists that are taken over, and the visitor come one after the other.
    refine Ends.bind ((replaceNode_forest_ends others each site below).mono
      fun id inside => mem_cons_of_mem _ inside) fun results between _ => ?_
    refine Ends.bind (takeOver_ends mem_cons_self) fun _ settled _ => ?_
    refine Ends.bind ((modest _ settled).mono fun _ => False.elim) fun replacement asked _ => ?_
    refine ends_get_bind ?_
    split
    · exact Ends.bind (cutOff_ends mem_cons_self) fun _ _ _ => ends_pure
    · exact ends_pure

/-- Putting a node in the place of the root goes down nowhere. -/
theorem replaceRoot_ends {place : Option Nat × Option Nat} {id : Nat} {site : Site α} :
    Ends (replaceRoot place id) site fun _ => True := by
  have anywhere : ∀ {step : Site α → Site α} {site : Site α},
      Ends (modify step) site fun _ => True := ends_modify fun _ outside => absurd trivial outside
  refine ends_get_bind ?_
  refine Ends.bind anywhere fun _ cut _ => ?_
  obtain ⟨parent, position⟩ := place
  have linked : ∀ {site : Site α}, Ends (do
      linkAll parent [id]
      modify fun site => { site with root := id }) site fun _ => True :=
    Ends.bind linkAll_ends fun _ _ _ => anywhere
  cases parent with
  | none => exact linked
  | some parent =>
    cases position with
    | none => exact ends_throw_bind (by simp)
    | some position =>
      refine ends_get_bind ?_
      dsimp only
      split
      · exact Ends.bind anywhere fun _ _ _ => linked
      · exact ends_throw_bind (by simp)

/-- Replacing the nodes of a view without cycles comes to an end, whatever takes their places. -/
theorem replaceNodes_ends (modest : visit.Modest) {site : Site α}
    (consistent : site.arena.Consistent) (acyclic : site.arena.Acyclic site.root)
    (present : site.root < site.arena.size) :
    Ends (replaceNodes visit) site fun _ => True := by
  obtain ⟨tree, isRoot, holds, distinct⟩ := consistent.exists_holds acyclic present
  refine ends_get_bind ?_
  have below := replaceNode_ends modest distinct (Nat.le_succ_of_le (holds.length_le distinct))
    site holds.spans
  rw [isRoot] at below
  refine Ends.bind (below.mono fun _ _ => trivial) ?_
  rintro ⟨replacement, visited⟩ after -
  dsimp only
  split
  · split
    · exact Ends.bind replaceRoot_ends fun _ _ _ => ends_pure
    · exact ends_pure
  · exact ends_pure

end Edit

end ThreeAddress

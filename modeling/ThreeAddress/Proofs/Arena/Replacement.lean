import ThreeAddress.Arena.Replacement
import ThreeAddress.Proofs.Arena.Denotation
import ThreeAddress.Proofs.Steps

/-!
Replacing the nodes of a view in place does what replacing the nodes of its tree does.

Each node is first given the nodes that take the places of its children, then its visitor is asked, and a node that is not among those in its own place is cut off.
Nothing outside the view changes, except that its root may give way in the list of its parent.
-/

namespace ThreeAddress

open Steps List

variable {α : Type}

namespace Arena

variable {arena : Arena α}

/-! What the changes of a replacement do to values, lists and links. -/

variable {id : Nat}

/-- A node gives up its old children and takes others. -/
def adopt (arena : Arena α) (id : Nat) (old new : List Nat) : Arena α :=
  ((arena.relink none old).relink (some id) new).setChildren id new

/-- A node gives up its children and its parent. -/
def cutOff (arena : Arena α) (id : Nat) : Arena α := (arena.setChildren id []).setParent id none

section Adopt

variable (id : Nat) (old new : List Nat)

@[simp]
theorem size_adopt : (arena.adopt id old new).size = arena.size := by
  simp [adopt]

@[simp]
theorem valueOf?_adopt (other : Nat) : (arena.adopt id old new).valueOf? other = arena.valueOf? other := by
  simp [adopt]

theorem childrenOf_adopt (present : id < arena.size) (other : Nat) :
    (arena.adopt id old new).childrenOf other = if other = id then new else arena.childrenOf other := by
  rw [adopt, childrenOf_setChildren (by simpa using present)]
  simp

theorem parentOf_adopt (oldPresent : ∀ child ∈ old, child < arena.size)
    (newPresent : ∀ child ∈ new, child < arena.size) (other : Nat) :
    (arena.adopt id old new).parentOf other =
      if other ∈ new then some id else if other ∈ old then none else arena.parentOf other := by
  rw [adopt, parentOf_setChildren, parentOf_relink _ _ (by simpa using newPresent),
    parentOf_relink _ _ oldPresent]

variable {other : Nat}

theorem get?_adopt (apart : other ≠ id) (notOld : other ∉ old) (notNew : other ∉ new) :
    (arena.adopt id old new).get? other = arena.get? other := by
  rw [adopt, setChildren, get?_modify, if_neg apart, get?_relink _ _ notNew, get?_relink _ _ notOld]

@[simp]
theorem size_cutOff : (arena.cutOff id).size = arena.size := by
  simp [cutOff]

theorem get?_cutOff (apart : other ≠ id) : (arena.cutOff id).get? other = arena.get? other := by
  rw [cutOff, setParent, get?_modify, if_neg apart, setChildren, get?_modify, if_neg apart]

end Adopt

open ThreeAddress.Tree

/-- A node with nothing above and below it. -/
def Alone (arena : Arena α) (id : Nat) : Prop := arena.childrenOf id = [] ∧ arena.parentOf id = none

theorem cutOff_alone (present : id < arena.size) : (arena.cutOff id).Alone id := by
  rw [Alone, cutOff, childrenOf_setParent, childrenOf_setChildren present,
    parentOf_setParent (by simpa using present), if_pos rfl, if_pos rfl]
  exact ⟨rfl, rfl⟩

theorem Alone.unchanged {after : Arena α} (alone : arena.Alone id)
    (same : after.get? id = arena.get? id) : after.Alone id :=
  ⟨(childrenOf_congr same).trans alone.1, (parentOf_congr same).trans alone.2⟩

/-- One node comes into the place of another in the list of a parent. -/
def relist (arena : Arena α) (old new : Nat) : Option Nat → Arena α
  | none => arena
  | some parent =>
    arena.setChildren parent
      ((arena.childrenOf parent).set ((arena.childrenOf parent).idxOf old) new)

/-- One node comes into the place of another, which is cut off. -/
def succeed (arena : Arena α) (parent : Option Nat) (old new : Nat) : Arena α :=
  ((arena.cutOff old).relist old new parent).setParent new parent

section Succession

variable {parent : Option Nat} {old new other : Nat}

@[simp]
theorem size_succeed : (arena.succeed parent old new).size = arena.size := by
  cases parent <;> simp [succeed, relist]

@[simp]
theorem valueOf?_succeed : (arena.succeed parent old new).valueOf? other = arena.valueOf? other := by
  cases parent <;> simp [succeed, relist, cutOff]

/-- In the place of a node only its parent and its successor are touched. -/
theorem get?_succeed (notOld : other ≠ old) (notNew : other ≠ new) (notParent : parent ≠ some other) :
    (arena.succeed parent old new).get? other = arena.get? other := by
  rw [succeed, setParent, get?_modify, if_neg notNew]
  cases parent with
  | none => exact get?_cutOff _ notOld
  | some above =>
    have apart : other ≠ above := fun same => notParent (same ▸ rfl)
    rw [relist, setChildren, get?_modify, if_neg apart]
    exact get?_cutOff _ notOld

theorem childrenOf_succeed (notOld : other ≠ old) (notParent : parent ≠ some other) :
    (arena.succeed parent old new).childrenOf other = arena.childrenOf other := by
  rw [succeed, childrenOf_setParent]
  cases parent with
  | none => exact childrenOf_congr (get?_cutOff _ notOld)
  | some above =>
    have apart : other ≠ above := fun same => notParent (same ▸ rfl)
    refine childrenOf_congr ?_
    rw [relist, setChildren, get?_modify, if_neg apart]
    exact get?_cutOff _ notOld

theorem parentOf_succeed (notOld : other ≠ old) (present : new < arena.size) :
    (arena.succeed parent old new).parentOf other =
      if other = new then parent else arena.parentOf other := by
  have kept : ((arena.cutOff old).relist old new parent).parentOf other = arena.parentOf other := by
    cases parent with
    | none => exact parentOf_congr (get?_cutOff _ notOld)
    | some above =>
      rw [relist, parentOf_setChildren]
      exact parentOf_congr (get?_cutOff _ notOld)
  rw [succeed, parentOf_setParent, kept]
  cases parent <;> simpa [relist] using present

theorem succeed_alone (present : old < arena.size) (different : old ≠ new)
    (notParent : parent ≠ some old) : (arena.succeed parent old new).Alone old := by
  refine (cutOff_alone present).unchanged ?_
  rw [succeed, setParent, get?_modify, if_neg different]
  cases parent with
  | none => rfl
  | some above =>
    have apart : old ≠ above := fun same => notParent (same ▸ rfl)
    rw [relist, setChildren, get?_modify, if_neg apart]

theorem get?_succeed_parent {above : Nat} (notOld : above ≠ old) (notNew : above ≠ new) :
    (arena.succeed (some above) old new).get? above = (arena.get? above).map fun node =>
      { node with children := node.children.set (node.children.idxOf old) new } := by
  -- Cutting off the old node does not touch the list of its parent.
  rw [succeed, setParent, get?_modify, if_neg notNew, relist, setChildren, get?_modify, if_pos rfl,
    childrenOf, get?_cutOff _ notOld]
  cases arena.get? above <;> rfl

end Succession

/-- What becomes of an arena when some trees in it give way to what takes their places. -/
structure Rewritten (replace : Replacement α) (trees : List (Tree α)) (before after : Arena α) :
    Prop where
  size : after.size = before.size
  frame : ∀ id, id ∉ trees.flatMap ids → after.get? id = before.get? id
  holds : ∀ tree ∈ replaceForest replace trees, after.Holds tree
  linked : ∀ tree ∈ replaceForest replace trees, after.Linked tree
  alone : ∀ tree ∈ trees, ∀ sub ∈ tree.subtrees, Dropped replace sub → after.Alone sub.id

/-- What becomes of an arena when all that is below a node gives way, the node itself still in place. -/
structure Settled (replace : Replacement α) (tree : Tree α) (before after : Arena α) : Prop where
  size : after.size = before.size
  frame : ∀ id, id ∉ tree.ids → after.get? id = before.get? id
  holds : after.Holds (replaceBelow replace tree)
  linked : after.Linked (replaceBelow replace tree)
  parent : after.parentOf tree.id = before.parentOf tree.id
  alone : ∀ child ∈ tree.children, ∀ sub ∈ child.subtrees, Dropped replace sub → after.Alone sub.id

section Rewriting

variable {replace : Replacement α} {before middle after : Arena α}

theorem Rewritten.nil : Rewritten replace [] before before :=
  ⟨rfl, fun _ _ => rfl, forall_mem_nil _, forall_mem_nil _, forall_mem_nil _⟩

variable (chooses : Chooses replace)
include chooses

/-- Trees give way one after the other, and what the first one leaves is not touched again. -/
theorem Rewritten.cons {tree : Tree α} {rest : List (Tree α)}
    (distinct : ((tree :: rest).flatMap ids).Nodup) (first : Rewritten replace [tree] before middle)
    (others : Rewritten replace rest middle after) : Rewritten replace (tree :: rest) before after := by
  have apart : ∀ id ∈ tree.ids, id ∉ rest.flatMap ids := by
    rw [flatMap_cons] at distinct
    exact fun id here there => disjoint_of_nodup_append distinct here there
  have listed : replaceForest replace (tree :: rest) =
      replaceForest replace [tree] ++ replaceForest replace rest :=
    replaceForest_append replace [tree] rest
  -- What is left of the first tree has numbers of that tree, which the others do not touch.
  have untouched : ∀ chosen ∈ replaceForest replace [tree], ∀ id ∈ chosen.ids,
      after.get? id = middle.get? id := by
    intro chosen member id inside
    obtain ⟨other, isOther, -, within⟩ := mem_of_mem_replaceForest chooses member
    obtain rfl := mem_singleton.mp isOther
    exact others.frame id (apart id (within id inside))
  refine ⟨others.size.trans first.size, fun id outside => ?_, fun chosen member => ?_,
    fun chosen member => ?_, fun other member sub isSub dropped => ?_⟩
  · rw [flatMap_cons, mem_append, not_or] at outside
    rw [others.frame id outside.2, first.frame id (by simpa using outside.1)]
  · rw [listed] at member
    rcases mem_append.mp member with early | late
    · exact (first.holds chosen early).unchanged (untouched chosen early)
    · exact others.holds chosen late
  · rw [listed] at member
    rcases mem_append.mp member with early | late
    · exact (first.linked chosen early).congr fun id inside =>
        parentOf_congr (untouched chosen early id (mem_ids_of_inner inside))
    · exact others.linked chosen late
  · rcases mem_cons.mp member with rfl | late
    · refine (first.alone other mem_cons_self sub isSub dropped).unchanged ?_
      exact others.frame _ (apart _ (mem_map_of_mem isSub))
    · exact others.alone other late sub isSub dropped

/-- A node takes over what came in the places of its children. -/
theorem Rewritten.settled {number : Nat} {value : α} {children : List (Tree α)}
    (distinct : (Tree.node number value children).ids.Nodup)
    (holds : before.Holds (.node number value children))
    (rewritten : Rewritten replace children before middle) :
    Settled replace (.node number value children) before (middle.adopt number
      (children.map Tree.id) ((replaceForest replace children).map Tree.id)) := by
  have present := holds.lt_size
  rw [← rewritten.size] at present
  have split : (Tree.node number value children).ids = number :: children.flatMap ids := ids_eq _
  rw [split] at distinct present
  obtain ⟨apart, below⟩ := nodup_cons.mp distinct
  obtain ⟨here, inside⟩ := forall_mem_cons.mp present
  -- Both the old children and the new ones come from below the node.
  have old : ∀ id ∈ children.map Tree.id, id ∈ children.flatMap ids := by
    intro id member
    obtain ⟨child, isChild, rfl⟩ := mem_map.mp member
    exact mem_flatMap.mpr ⟨child, isChild, child.id_mem_ids⟩
  have left : ∀ chosen ∈ replaceForest replace children, ∀ id ∈ chosen.ids,
      id ∈ children.flatMap ids := fun chosen member id listed =>
    (replaceForest_sublist chooses children).subset (mem_flatMap.mpr ⟨chosen, member, listed⟩)
  have new : ∀ id ∈ (replaceForest replace children).map Tree.id, id ∈ children.flatMap ids := by
    intro id member
    obtain ⟨chosen, isChosen, rfl⟩ := mem_map.mp member
    exact left chosen isChosen _ chosen.id_mem_ids
  have lists := childrenOf_adopt number (children.map Tree.id)
    ((replaceForest replace children).map Tree.id) here
  have links := parentOf_adopt number (children.map Tree.id)
    ((replaceForest replace children).map Tree.id) (fun id member => inside id (old id member))
    fun id member => inside id (new id member)
  have distinctNew := (replaceForest_sublist chooses children).nodup below
  refine ⟨(size_adopt ..).trans rewritten.size, fun id outside => ?_, ?_, ?_, ?_, ?_⟩
  · rw [split] at outside
    obtain ⟨other, outer⟩ := ne_and_not_mem_of_not_mem_cons outside
    rw [get?_adopt _ _ _ other (fun member => outer (old id member))
      fun member => outer (new id member)]
    exact rewritten.frame id outer
  · -- The node keeps its value and lists the new children, whose own lists are not touched.
    rw [replaceBelow]
    refine holds_node.mpr ⟨?_, ?_, fun chosen member => ?_⟩
    · rw [valueOf?_adopt, valueOf?_congr (rewritten.frame number apart)]
      exact (holds_node.mp holds).1
    · rw [lists, if_pos rfl]
    · refine (rewritten.holds chosen member).congr (fun id _ => valueOf?_adopt ..) fun id listed => ?_
      rw [lists, if_neg]
      rintro rfl
      exact apart (left chosen member id listed)
  · rw [replaceBelow]
    refine linked_node.mpr ⟨fun chosen member => ?_, fun chosen member => ?_⟩
    · rw [links, if_pos (mem_map_of_mem member)]
    · -- Below the new children no link is touched: neither old nor new children are there.
      refine (rewritten.linked chosen member).congr fun id listed => ?_
      rw [links, if_neg, if_neg]
      · intro isOld
        obtain ⟨child, isChild, rfl⟩ := mem_map.mp isOld
        exact root_not_mem_innerIds chooses below isChild member listed
      · intro isNew
        obtain ⟨other, isOther, rfl⟩ := mem_map.mp isNew
        exact id_not_mem_innerIds distinctNew isOther member listed
  · -- The node is neither an old nor a new child of its own, so its link stays.
    rw [show (Tree.node number value children).id = number from rfl, links,
      if_neg fun member => apart (new _ member), if_neg fun member => apart (old _ member)]
    exact parentOf_congr (rewritten.frame number apart)
  · intro child isChild sub isSub dropped
    obtain ⟨childless, orphaned⟩ := rewritten.alone child isChild sub isSub dropped
    have listed : sub.id ∈ children.flatMap ids :=
      mem_flatMap.mpr ⟨child, isChild, mem_map_of_mem isSub⟩
    constructor
    · rw [lists, if_neg]
      · exact childless
      · rintro rfl
        exact apart listed
    · -- A node that was dropped is not among the new children.
      rw [links, if_neg]
      · split
        · rfl
        · exact orphaned
      · intro isNew
        obtain ⟨chosen, isChosen, same⟩ := mem_map.mp isNew
        refine not_mem_replaceForest_of_dropped chooses below isChild isSub dropped ?_
        exact mem_flatMap.mpr ⟨chosen, isChosen, same ▸ chosen.id_mem_ids⟩

/-- A node whose children have given way does so itself: it is cut off unless it stays. -/
theorem Settled.rewritten {tree : Tree α} (distinct : tree.ids.Nodup) (present : tree.id < middle.size)
    (settled : Settled replace tree before middle) :
    Rewritten replace [tree] before
      (if tree.id ∈ (replace (replaceBelow replace tree)).map Tree.id then middle
        else middle.cutOff tree.id) := by
  have listed : replaceForest replace [tree] = replace (replaceBelow replace tree) := by
    rw [replaceForest, replaceForest, append_nil]
  -- Cutting off the node does not touch any other node.
  have others : ∀ id, id ≠ tree.id → (if tree.id ∈ (replace (replaceBelow replace tree)).map Tree.id
      then middle else middle.cutOff tree.id).get? id = middle.get? id := by
    intro id other
    split
    · rfl
    · exact get?_cutOff _ other
  have apart := id_not_mem_inner distinct
  -- The node is not below itself, so that a child in its place is whole without it.
  have later : ∀ chosen ∈ (replaceBelow replace tree).children, ∀ id ∈ chosen.ids, id ≠ tree.id := by
    rintro chosen member _ inside rfl
    exact apart (mem_innerIds_of_replaceBelow chooses (mem_innerIds member inside))
  refine ⟨?_, fun id outside => ?_, fun chosen member => ?_, fun chosen member => ?_, ?_⟩
  · split
    · exact settled.size
    · rw [size_cutOff, settled.size]
  · rw [flatMap_singleton] at outside
    rw [others id, settled.frame id outside]
    rintro rfl
    exact outside tree.id_mem_ids
  · rw [listed] at member
    rcases chooses.cases member with rfl | isChild
    · rw [if_pos (mem_map.mpr ⟨_, member, id_replaceBelow tree⟩)]
      exact settled.holds
    · exact (settled.holds.child isChild).unchanged fun id inside =>
        others id (later chosen isChild id inside)
  · rw [listed] at member
    rcases chooses.cases member with rfl | isChild
    · rw [if_pos (mem_map.mpr ⟨_, member, id_replaceBelow tree⟩)]
      exact settled.linked
    · exact (settled.linked.child isChild).congr fun id inside =>
        parentOf_congr (others id (later chosen isChild id (mem_ids_of_inner inside)))
  · intro other isOther sub isSub dropped
    obtain rfl := mem_singleton.mp isOther
    -- A node is dropped here, or was dropped further down.
    rcases mem_subtrees_cases isSub with rfl | ⟨child, isChild, inChild⟩
    · rw [if_neg dropped]
      exact cutOff_alone present
    · refine (settled.alone child isChild sub inChild dropped).unchanged (others _ ?_)
      rintro same
      exact apart (same ▸ mem_innerIds isChild (mem_map_of_mem inChild))

end Rewriting

end Arena

end ThreeAddress

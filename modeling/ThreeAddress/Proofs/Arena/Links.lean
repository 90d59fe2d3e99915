import ThreeAddress.Arena.Cursor
import Mathlib.Data.List.Nodup

/-!
What a change of an arena does to its lists of children and to its links.

An arena is consistent if the two say the same: a node lists exactly those nodes that link to it, and each of them once.
-/

namespace ThreeAddress

open List

variable {α : Type}

namespace Arena

variable {arena : Arena α} {id : Nat}

theorem get?_eq_none_iff : arena.get? id = none ↔ arena.size ≤ id := getElem?_eq_none_iff

theorem get?_modify (id other : Nat) (change : ArenaNode α → ArenaNode α) :
    (arena.modify id change).get? other =
      if other = id then (arena.get? other).map change else arena.get? other := by
  simp only [get?, modify, getElem?_modify, eq_comm (a := other)]
  split <;> simp

theorem get?_push (value : α) (other : Nat) :
    (arena.push value).get? other = if other = arena.size then some { value } else arena.get? other := by
  simp only [get?, push, size, getElem?_append]
  grind

/-! The number of nodes changes only when one is added. -/

@[simp]
theorem size_modify (id : Nat) (change : ArenaNode α → ArenaNode α) :
    (arena.modify id change).size = arena.size := length_modify ..

@[simp]
theorem size_setValue (id : Nat) (value : α) : (arena.setValue id value).size = arena.size :=
  size_modify ..

@[simp]
theorem size_setParent (id : Nat) (parent : Option Nat) :
    (arena.setParent id parent).size = arena.size := size_modify ..

@[simp]
theorem size_setChildren (id : Nat) (children : List Nat) :
    (arena.setChildren id children).size = arena.size := size_modify ..

@[simp]
theorem size_push (value : α) : (arena.push value).size = arena.size + 1 := by
  simp [push, size]

/-! What is read of a node changes only where it is set. -/

section Reading

variable {β : Type} (read : Option (ArenaNode α) → β) {change : ArenaNode α → ArenaNode α}

theorem read_modify (keeps : ∀ node, read (some (change node)) = read (some node)) (other : Nat) :
    read ((arena.modify id change).get? other) = read (arena.get? other) := by
  rw [get?_modify]
  split
  · cases arena.get? other with
    | none => rfl
    | some node => exact keeps node
  · rfl

theorem read_modify_at (present : id < arena.size) {held : β}
    (sets : ∀ node, read (some (change node)) = held) (other : Nat) :
    read ((arena.modify id change).get? other) =
      if other = id then held else read (arena.get? other) := by
  rw [get?_modify]
  split
  · next same =>
    cases found : arena.get? other with
    | none => exact absurd (get?_eq_none_iff.mp found) (Nat.not_le_of_lt (same ▸ present))
    | some node => exact sets node
  · rfl

theorem read_push {value : α} (bare : read (some { value }) = read none) (other : Nat) :
    read ((arena.push value).get? other) = read (arena.get? other) := by
  rw [get?_push]
  split
  · next same => rw [bare, get?_eq_none_iff.mpr (Nat.le_of_eq same.symm)]
  · rfl

end Reading

def valueOf? (arena : Arena α) (id : Nat) : Option α := (arena.get? id).map ArenaNode.value

@[simp]
theorem childrenOf_setValue (id : Nat) (value : α) (other : Nat) :
    (arena.setValue id value).childrenOf other = arena.childrenOf other :=
  read_modify (Option.elim · [] ArenaNode.children) (by simp) other

@[simp]
theorem parentOf_setValue (id : Nat) (value : α) (other : Nat) :
    (arena.setValue id value).parentOf other = arena.parentOf other :=
  read_modify (Option.bind · ArenaNode.parent) (by simp) other

@[simp]
theorem childrenOf_setParent (id : Nat) (parent : Option Nat) (other : Nat) :
    (arena.setParent id parent).childrenOf other = arena.childrenOf other :=
  read_modify (Option.elim · [] ArenaNode.children) (by simp) other

theorem parentOf_setParent (present : id < arena.size) (parent : Option Nat) (other : Nat) :
    (arena.setParent id parent).parentOf other =
      if other = id then parent else arena.parentOf other :=
  read_modify_at (Option.bind · ArenaNode.parent) present (by simp) other

@[simp]
theorem valueOf?_setParent (id : Nat) (parent : Option Nat) (other : Nat) :
    (arena.setParent id parent).valueOf? other = arena.valueOf? other :=
  read_modify (Option.map ArenaNode.value) (by simp) other

theorem childrenOf_setChildren (present : id < arena.size) (children : List Nat) (other : Nat) :
    (arena.setChildren id children).childrenOf other =
      if other = id then children else arena.childrenOf other :=
  read_modify_at (Option.elim · [] ArenaNode.children) present (by simp) other

@[simp]
theorem parentOf_setChildren (id : Nat) (children : List Nat) (other : Nat) :
    (arena.setChildren id children).parentOf other = arena.parentOf other :=
  read_modify (Option.bind · ArenaNode.parent) (by simp) other

@[simp]
theorem valueOf?_setChildren (id : Nat) (children : List Nat) (other : Nat) :
    (arena.setChildren id children).valueOf? other = arena.valueOf? other :=
  read_modify (Option.map ArenaNode.value) (by simp) other

@[simp]
theorem childrenOf_push (value : α) (other : Nat) :
    (arena.push value).childrenOf other = arena.childrenOf other :=
  read_push (Option.elim · [] ArenaNode.children) rfl other

@[simp]
theorem parentOf_push (value : α) (other : Nat) :
    (arena.push value).parentOf other = arena.parentOf other :=
  read_push (Option.bind · ArenaNode.parent) rfl other

/-! Nodes made behind the children of another. -/

variable {parent : Nat}

theorem get?_append (present : parent < arena.size) (value : α) (other : Nat) :
    (arena.append parent value).get? other =
      if other = parent then (arena.get? other).map fun node =>
        { node with children := node.children ++ [arena.size] }
      else if other = arena.size then some { value, parent := some parent }
      else arena.get? other := by
  have apart : arena.size ≠ parent := (Nat.ne_of_lt present).symm
  simp only [append, setChildren, setParent, get?_modify, get?_push]
  by_cases same : other = parent
  · subst same
    simp only [if_pos, if_neg apart.symm, childrenOf]
    cases arena.get? other <;> rfl
  · by_cases new : other = arena.size
    · simp [new, apart]
    · simp [same, new]

/-- The nodes that are made come behind the others in order, and their parent lists them last. -/
theorem get?_appendAll (present : parent < arena.size) (values : List α) (other : Nat) :
    (arena.appendAll parent values).2.get? other =
      if other = parent then (arena.get? other).map fun node =>
        { node with children := node.children ++ (arena.appendAll parent values).1 }
      else if other < arena.size then arena.get? other
      else values[other - arena.size]?.map fun value => { value, parent := some parent } := by
  induction values generalizing arena with
  | nil =>
    simp only [appendAll, append_nil, getElem?_nil, Option.map_none]
    split
    · cases arena.get? other <;> rfl
    · split
      · rfl
      · next outside => exact get?_eq_none_iff.mpr (Nat.le_of_not_lt outside)
  | cons value rest ih =>
    have grown : (arena.append parent value).size = arena.size + 1 := by simp [append]
    rw [appendAll]
    simp only
    rw [ih (grown ▸ Nat.lt_succ_of_lt present), grown, get?_append present]
    by_cases same : other = parent
    · simp [same, Option.map_map, Function.comp_def]
    · simp only [if_neg same]
      rcases Nat.lt_trichotomy other arena.size with old | first | new
      · simp [old, Nat.lt_succ_of_lt old, Nat.ne_of_lt old]
      · simp [first]
      · obtain ⟨distance, rfl⟩ := Nat.exists_eq_add_of_lt new
        have behind : ¬ arena.size + distance + 1 < arena.size := by omega
        have further : ¬ arena.size + distance + 1 < arena.size + 1 := by omega
        rw [if_neg further, if_neg behind,
          show arena.size + distance + 1 - arena.size = distance + 1 by omega,
          show arena.size + distance + 1 - (arena.size + 1) = distance by omega, getElem?_cons_succ]

theorem appendAll_fst (values : List α) :
    (arena.appendAll parent values).1 = List.range' arena.size values.length := by
  induction values generalizing arena with
  | nil => rfl
  | cons value rest ih =>
    rw [appendAll]
    simp only [ih, length_cons, List.range'_succ]
    simp [append]

@[simp]
theorem size_appendAll (values : List α) :
    (arena.appendAll parent values).2.size = arena.size + values.length := by
  induction values generalizing arena with
  | nil => rfl
  | cons value rest ih =>
    rw [appendAll]
    simp only [ih, append, size_setChildren, size_setParent, size_push, length_cons]
    omega

theorem childrenOf_appendAll (present : parent < arena.size) (values : List α) (other : Nat) :
    (arena.appendAll parent values).2.childrenOf other = if other = parent then
      arena.childrenOf other ++ (arena.appendAll parent values).1 else arena.childrenOf other := by
  simp only [childrenOf, get?_appendAll present]
  split
  · next same =>
    obtain ⟨node, found⟩ : ∃ node, arena.get? other = some node :=
      Option.ne_none_iff_exists'.mp fun absent =>
        absurd (get?_eq_none_iff.mp absent) (Nat.not_le_of_lt (same ▸ present))
    simp [found]
  · split
    · rfl
    · next outside =>
      -- A new node has no children, as one that is not there.
      rw [get?_eq_none_iff.mpr (Nat.le_of_not_lt outside)]
      cases values[other - arena.size]? <;> rfl

theorem parentOf_appendAll (present : parent < arena.size) (values : List α) (other : Nat) :
    (arena.appendAll parent values).2.parentOf other =
      if other ∈ (arena.appendAll parent values).1 then some parent else arena.parentOf other := by
  simp only [parentOf, get?_appendAll present, appendAll_fst, mem_range'_1]
  by_cases inside : other < arena.size
  · have old : ¬ (arena.size ≤ other ∧ other < arena.size + values.length) := by omega
    rw [if_neg old, if_pos inside]
    split
    · cases arena.get? other <;> rfl
    · rfl
  · have apart : other ≠ parent := by omega
    rw [if_neg apart, if_neg inside, get?_eq_none_iff.mpr (Nat.le_of_not_lt inside)]
    by_cases new : other - arena.size < values.length
    · rw [getElem?_eq_getElem new, if_pos (by omega)]
      rfl
    · rw [getElem?_eq_none (Nat.le_of_not_lt new), if_neg (by omega)]
      rfl

/-- The links of some nodes lead to one parent. -/
def relink (arena : Arena α) (parent : Option Nat) (ids : List Nat) : Arena α :=
  ids.foldl (fun arena id => arena.setParent id parent) arena

section Relink

variable (parent : Option Nat) (ids : List Nat)

/-- What links do not show is as before. -/
theorem relink_keeps {β : Type} (read : Arena α → β)
    (keeps : ∀ arena id, read (arena.setParent id parent) = read arena) :
    read (arena.relink parent ids) = read arena := by
  induction ids generalizing arena with
  | nil => rfl
  | cons id rest ih => exact ih.trans (keeps arena id)

@[simp]
theorem size_relink : (arena.relink parent ids).size = arena.size :=
  relink_keeps parent ids size (by simp)

@[simp]
theorem valueOf?_relink (other : Nat) :
    (arena.relink parent ids).valueOf? other = arena.valueOf? other :=
  relink_keeps parent ids (valueOf? · other) (by simp)

@[simp]
theorem childrenOf_relink (other : Nat) :
    (arena.relink parent ids).childrenOf other = arena.childrenOf other :=
  relink_keeps parent ids (childrenOf · other) (by simp)

theorem get?_relink {other : Nat} (apart : other ∉ ids) :
    (arena.relink parent ids).get? other = arena.get? other := by
  induction ids generalizing arena with
  | nil => rfl
  | cons id rest ih =>
    obtain ⟨here, later⟩ := ne_and_not_mem_of_not_mem_cons apart
    refine (ih later).trans ?_
    show (arena.setParent id parent).get? other = arena.get? other
    rw [setParent, get?_modify, if_neg here]

theorem parentOf_relink (present : ∀ id ∈ ids, id < arena.size) (other : Nat) :
    (arena.relink parent ids).parentOf other =
      if other ∈ ids then parent else arena.parentOf other := by
  induction ids generalizing arena with
  | nil => rfl
  | cons id rest ih =>
    obtain ⟨here, later⟩ := forall_mem_cons.mp present
    refine (ih fun other member => ?_).trans ?_
    · rw [size_setParent]
      exact later other member
    · rw [parentOf_setParent here]
      by_cases behind : other ∈ rest
      · simp [behind]
      · simp [behind]

end Relink

/-- Lists of children and links that say the same. -/
structure Consistent (arena : Arena α) : Prop where
  linked : ∀ child parent, child ∈ arena.childrenOf parent ↔ arena.parentOf child = some parent
  distinct : ∀ parent, (arena.childrenOf parent).Nodup

theorem lt_size_of_mem_childrenOf {child parent : Nat} (member : child ∈ arena.childrenOf parent) :
    parent < arena.size := by
  refine Nat.lt_of_not_le fun outside => ?_
  simp [childrenOf, get?_eq_none_iff.mpr outside] at member

theorem lt_size_of_parentOf {child parent : Nat} (linked : arena.parentOf child = some parent) :
    child < arena.size := by
  refine Nat.lt_of_not_le fun outside => ?_
  simp [parentOf, get?_eq_none_iff.mpr outside] at linked

namespace Consistent

/-- One node lists nothing and links to nothing. -/
theorem single (value : α) : (Arena.single value).Consistent := by
  have empty : ∀ id, (Arena.single value).childrenOf id = [] ∧ (Arena.single value).parentOf id = none := by
    intro id
    cases id with
    | zero => exact ⟨rfl, rfl⟩
    | succ id => simp [childrenOf, parentOf, get?, Arena.single]
  exact ⟨fun child parent => by simp [empty], fun parent => by simp [empty]⟩

variable (consistent : arena.Consistent)
include consistent

variable {child parent place : Nat} {other : Arena α}

theorem parent_lt (linked : arena.parentOf child = some parent) : parent < arena.size :=
  lt_size_of_mem_childrenOf ((consistent.linked child parent).mpr linked)

theorem child_lt (member : child ∈ arena.childrenOf parent) : child < arena.size :=
  lt_size_of_parentOf ((consistent.linked child parent).mp member)

theorem parent_unique {one other : Nat} (ofOne : child ∈ arena.childrenOf one)
    (ofOther : child ∈ arena.childrenOf other) : one = other :=
  Option.some.inj (((consistent.linked child one).mp ofOne).symm.trans
    ((consistent.linked child other).mp ofOther))

/-- A child is found where its parent lists it. -/
theorem position?_eq_some_iff (linked : arena.parentOf child = some parent) :
    arena.position? child = some place ↔ (arena.childrenOf parent)[place]? = some child := by
  have nodup := consistent.distinct parent
  simp only [position?, linked, Option.bind_eq_bind, Option.bind_some, idxOf?_eq_some_iff,
    getElem?_eq_some_iff]
  constructor
  · rintro ⟨inside, same, -⟩
    exact ⟨inside, same⟩
  · rintro ⟨inside, rfl⟩
    exact ⟨inside, rfl, fun before earlier same =>
      absurd (nodup.getElem_inj_iff.mp same) (Nat.ne_of_lt earlier)⟩

theorem position?_eq_some (linked : arena.parentOf child = some parent) :
    ∃ place, arena.position? child = some place ∧
      (arena.childrenOf parent)[place]? = some child := by
  obtain ⟨place, found⟩ := mem_iff_getElem?.mp ((consistent.linked child parent).mpr linked)
  exact ⟨place, (consistent.position?_eq_some_iff linked).mpr found, found⟩

theorem congr (children : ∀ id, other.childrenOf id = arena.childrenOf id)
    (parent : ∀ id, other.parentOf id = arena.parentOf id) : other.Consistent :=
  ⟨fun child owner => by rw [children, parent, consistent.linked],
    fun owner => by rw [children]; exact consistent.distinct owner⟩

/-- Nodes without a parent become children of one node, at any place among those it has. -/
theorem attached (owner place : Nat) {adopted : List Nat} (distinct : adopted.Nodup)
    (free : ∀ child ∈ adopted, arena.parentOf child = none)
    (children : ∀ id, other.childrenOf id = if id = owner then
      (arena.childrenOf owner).take place ++ adopted ++ (arena.childrenOf owner).drop place
      else arena.childrenOf id)
    (parent : ∀ id, other.parentOf id = if id ∈ adopted then some owner else arena.parentOf id) :
    other.Consistent where
  linked child id := by
    have before := consistent.linked child
    have cut := take_append_drop place (arena.childrenOf owner)
    have inside : child ∈ arena.childrenOf owner ↔
        child ∈ (arena.childrenOf owner).take place ∨ child ∈ (arena.childrenOf owner).drop place := by
      rw [← mem_append, cut]
    rw [children, parent]
    by_cases member : child ∈ adopted
    · -- A node that is adopted was in no list before.
      have none := free child member
      grind
    · grind
  distinct id := by
    rw [children]
    split
    · -- The new children are apart from the old ones, which keep their order.
      have apart : ∀ child ∈ adopted, child ∉ arena.childrenOf owner := by
        intro child member inside
        rw [consistent.linked, free child member] at inside
        cases inside
      have all : (adopted ++ arena.childrenOf owner).Nodup :=
        nodup_append.mpr ⟨distinct, consistent.distinct owner, by grind⟩
      rw [← take_append_drop place (arena.childrenOf owner)] at all
      rw [append_assoc]
      exact (perm_append_comm_assoc _ _ _).nodup_iff.mpr all
    · exact consistent.distinct id

theorem appendAll (present : parent < arena.size) (values : List α) :
    (arena.appendAll parent values).2.Consistent := by
  refine consistent.attached parent (arena.childrenOf parent).length ?_ ?_ (fun id => ?_)
    (parentOf_appendAll present values)
  · rw [appendAll_fst]
    exact nodup_range'
  · intro child member
    rw [appendAll_fst, mem_range'_1] at member
    rw [parentOf, get?_eq_none_iff.mpr member.1]
    rfl
  · rw [childrenOf_appendAll present, take_length, drop_length, append_nil]
    split
    · next same => rw [same]
    · rfl

theorem detached {owner : Nat} (found : (arena.childrenOf owner)[place]? = some child)
    (children : ∀ id, other.childrenOf id =
      if id = owner then (arena.childrenOf owner).eraseIdx place else arena.childrenOf id)
    (parent : ∀ id, other.parentOf id = if id = child then none else arena.parentOf id) :
    other.Consistent := by
  have nodup := consistent.distinct owner
  have erased : (arena.childrenOf owner).eraseIdx place = (arena.childrenOf owner).erase child := by
    obtain ⟨bound, rfl⟩ := List.getElem?_eq_some_iff.mp found
    exact (nodup.erase_getElem place bound).symm
  have member := mem_of_getElem? found
  constructor
  · intro node id
    have before := consistent.linked node
    rw [children, parent, erased]
    -- What is left in the list is all but the child, which was in no other list.
    have left := nodup.mem_erase_iff (a := node) (b := child)
    have link := (consistent.linked child owner).mp member
    grind
  · intro id
    rw [children, erased]
    split
    · exact nodup.erase child
    · exact consistent.distinct id

theorem orphaned (owner : Nat)
    (children : ∀ id, other.childrenOf id = if id = owner then [] else arena.childrenOf id)
    (parent : ∀ id, other.parentOf id =
      if id ∈ arena.childrenOf owner then none else arena.parentOf id) : other.Consistent where
  linked child id := by
    have before := consistent.linked child
    rw [children, parent]
    grind
  distinct id := by
    rw [children]
    split
    · exact nodup_nil
    · exact consistent.distinct id

end Consistent

end Arena

end ThreeAddress

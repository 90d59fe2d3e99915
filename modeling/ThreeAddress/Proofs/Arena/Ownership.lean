import ThreeAddress.Proofs.Arena.Denotation
import ThreeAddress.Proofs.Steps

/-!
Every step through a cursor keeps ownership.

Lists of children and links are changed one after the other, but every step that ends without a fault leaves them saying the same.
Most steps only take nodes out or shorten the ways down, and none of that puts a node below itself.
-/

namespace ThreeAddress

open Steps Relation List

variable {α : Type}

namespace Arena

variable {arena after : Arena α}

/-- No node is below itself. -/
def Loopless (arena : Arena α) : Prop := ∀ id, ¬ TransGen arena.Lists id id

theorem Loopless.of_below (loopless : arena.Loopless)
    (below : ∀ owner child, after.Lists owner child → TransGen arena.Lists owner child) :
    after.Loopless :=
  fun id cycle => loopless id (TransGen.closed below id id cycle)

section Attached

variable (parent : Nat) (adopted : Nat → Prop)

/-- A way down behind an adoption was there before, or leads through the node that adopts. -/
theorem transGen_attached
    (lists : ∀ owner child, after.Lists owner child →
      arena.Lists owner child ∨ owner = parent ∧ adopted child)
    (apart : ∀ child, adopted child → ¬ ReflTransGen arena.Lists child parent) {high low : Nat}
    (path : TransGen after.Lists high low) :
    TransGen arena.Lists high low ∨ ReflTransGen arena.Lists high parent ∧
      ∃ child, adopted child ∧ ReflTransGen arena.Lists child low := by
  induction path with
  | single listed =>
    rcases lists _ _ listed with before | ⟨rfl, member⟩
    · exact .inl (.single before)
    · exact .inr ⟨.refl, _, member, .refl⟩
  | tail _ listed ih =>
    rcases lists _ _ listed with before | ⟨rfl, member⟩
    · rcases ih with old | ⟨toParent, child, isChild, down⟩
      · exact .inl (old.tail before)
      · exact .inr ⟨toParent, child, isChild, down.tail before⟩
    · -- The node that adopts is passed once, since no adopted one leads back to it.
      rcases ih with old | ⟨-, child, isChild, down⟩
      · exact .inr ⟨old.to_reflTransGen, _, member, .refl⟩
      · exact absurd down (apart child isChild)

/-- Adoption closes no cycle if no adopted node stands above the node that adopts. -/
theorem Loopless.attached (loopless : arena.Loopless)
    (lists : ∀ owner child, after.Lists owner child →
      arena.Lists owner child ∨ owner = parent ∧ adopted child)
    (apart : ∀ child, adopted child → ¬ ReflTransGen arena.Lists child parent) : after.Loopless := by
  intro id cycle
  rcases transGen_attached parent adopted lists apart cycle with old | ⟨toParent, child, isChild, down⟩
  · exact loopless id old
  · exact apart child isChild (down.trans toParent)

/-- Adoption closes a cycle if an adopted node stands above the node that adopts. -/
theorem cycle_of_attached (kept : ∀ owner child, arena.Lists owner child → after.Lists owner child)
    {child : Nat} (listed : after.Lists parent child)
    (above : ReflTransGen arena.Lists child parent) : TransGen after.Lists parent parent :=
  .head' listed (ReflTransGen.mono kept child parent above)

end Attached

end Arena

/-- A site that work can go on from: the arena is consistent, and the root and the current node are in it. -/
structure Site.Sound (site : Site α) : Prop where
  consistent : site.arena.Consistent
  root : site.root < site.arena.size
  current : site.current < site.arena.size

/-- What a site becomes through sound steps: it is sound, and no node is lost. -/
structure Site.Evolves (before after : Site α) : Prop where
  sound : after.Sound
  size : before.arena.size ≤ after.arena.size

/-- What a site becomes through steps that put nothing below a node that was not below it before. -/
structure Site.Narrows (before after : Site α) : Prop extends before.Evolves after where
  shortens : ∀ owner child, after.arena.Lists owner child → TransGen before.arena.Lists owner child

namespace Site

variable {site middle after : Site α}

theorem Evolves.trans (first : site.Evolves middle) (second : middle.Evolves after) :
    site.Evolves after :=
  ⟨second.sound, Nat.le_trans first.size second.size⟩

theorem Narrows.trans (first : site.Narrows middle) (second : middle.Narrows after) :
    site.Narrows after :=
  ⟨first.toEvolves.trans second.toEvolves, fun owner child listed =>
    TransGen.closed first.shortens owner child (second.shortens owner child listed)⟩

namespace Sound

variable (sound : site.Sound)
include sound

theorem evolves_arena {arena : Arena α} (consistent : arena.Consistent)
    (size : site.arena.size ≤ arena.size) : site.Evolves { site with arena } :=
  ⟨⟨consistent, Nat.lt_of_lt_of_le sound.root size, Nat.lt_of_lt_of_le sound.current size⟩, size⟩

theorem narrows_arena {arena : Arena α} (consistent : arena.Consistent)
    (size : site.arena.size ≤ arena.size)
    (lists : ∀ id, arena.childrenOf id ⊆ site.arena.childrenOf id) :
    site.Narrows { site with arena } :=
  ⟨sound.evolves_arena consistent size, fun owner _ listed => .single (lists owner listed)⟩

theorem narrows_current {id : Nat} (present : id < site.arena.size) :
    site.Narrows { site with current := id } :=
  ⟨⟨⟨sound.consistent, sound.root, present⟩, Nat.le_refl _⟩, fun _ _ listed => .single listed⟩

theorem narrows_self : site.Narrows site := sound.narrows_current sound.current

end Sound

end Site

namespace Edit

variable {site : Site α}

theorem ensures_change {step : Arena α → Arena α} {good : Unit → Site α → Prop}
    (fits : good () { site with arena := step site.arena }) : Ensures (change step) site good :=
  ensures_modify fits

variable {id index : Int} {test : α → Bool} {value : α}

theorem locate_ensures : Ensures (locate id) site fun index after =>
    after = site ∧ index < site.arena.size ∧ id = index := by
  cases id with
  | negSucc id => exact ensures_throw
  | ofNat id =>
    refine ensures_get_bind ?_
    split
    · next present => exact ensures_pure ⟨rfl, present, rfl⟩
    · exact ensures_throw

theorem child_ensures : Ensures (child id index) site fun found after =>
    after = site ∧ ∃ owner place : Nat, id = owner ∧ index = place ∧
      (site.arena.childrenOf owner)[place]? = some found := by
  simp only [child, node, bind_assoc]
  refine Ensures.bind locate_ensures ?_
  rintro owner site ⟨rfl, -, rfl⟩
  refine ensures_get_bind ?_
  cases held : site.arena.get? owner with
  | none => exact ensures_throw_bind
  | some node =>
    rw [pure_bind]
    cases index with
    | negSucc place => exact ensures_throw
    | ofNat place =>
      cases found : node.children[place]? with
      | none => simp only [found]; exact ensures_throw
      | some child =>
        simp only [found]
        refine ensures_pure ⟨rfl, owner, place, rfl, rfl, ?_⟩
        simpa [Arena.childrenOf, held] using found

theorem findChild?_ensures : Ensures (findChild? test) site fun _ after =>
    after = site := by
  refine ensures_get_bind ?_
  exact ensures_pure rfl

theorem newNode_ensures (sound : site.Sound) : Ensures (newNode value) site
    fun id after => site.Narrows after ∧ id = site.arena.size ∧
      ∀ owner child, after.arena.Lists owner child → site.arena.Lists owner child := by
  refine ensures_get_bind ?_
  refine ensures_modify_bind ?_
  refine ensures_pure ⟨sound.narrows_arena ?_ (by simp) (by simp), rfl, fun owner child => ?_⟩
  · exact sound.consistent.congr (by simp) (by simp)
  · simp [Arena.Lists]

theorem setValue_ensures (sound : site.Sound) :
    Ensures (setValue id value) site fun _ => site.Narrows := by
  refine Ensures.bind locate_ensures ?_
  rintro index _ ⟨rfl, -, -⟩
  refine ensures_change (sound.narrows_arena ?_ (by simp) (by simp))
  exact sound.consistent.congr (by simp) (by simp)

variable {parent : Nat} {ids : List Int}

/-- Nodes that are adopted are those asked for, which are there, were free and are all different, and nothing but their links changes. -/
theorem adopt_ensures : Ensures (adopt parent ids) site
    fun adopted after => adopted.Nodup ∧ (∀ id : Nat, id ∈ adopted ↔ (id : Int) ∈ ids) ∧
      (∀ child ∈ adopted, child ≠ parent ∧ child < site.arena.size ∧ site.arena.parentOf child = none) ∧
      after = { site with arena := site.arena.relink (some parent) adopted } := by
  induction ids generalizing site with
  | nil => exact ensures_pure (by simp [Arena.relink])
  | cons id rest ih =>
    simp only [adopt]
    split
    · exact ensures_throw_bind
    · next other =>
      refine Ensures.bind locate_ensures ?_
      rintro index site ⟨rfl, present, rfl⟩
      refine ensures_get_bind ?_
      cases free : site.arena.parentOf index with
      | some owner => exact ensures_throw
      | none =>
        refine ensures_modify_bind ?_
        refine Ensures.bind ih ?_
        rintro adopted after ⟨distinct, same, others, rfl⟩
        -- The node is linked by now, so it is not among those that are adopted behind it.
        simp only [Arena.size_setParent, Arena.parentOf_setParent present (some parent)] at others
        refine ensures_pure ⟨by grind, fun id => ?_, ?_, rfl⟩
        · simp only [mem_cons, same, Int.ofNat_inj]
        · have apart : index ≠ parent := fun isParent => other (by rw [isParent])
          grind

variable {position : Int}

/-- Nodes become children of another, each of them was free, and nothing else gets a new child. -/
theorem attach_ensures (sound : site.Sound) (present : parent < site.arena.size) :
    Ensures (attach parent position ids) site fun _ after =>
      site.Evolves after ∧ (parent : Int) ∉ ids ∧ ∀ owner child, after.arena.Lists owner child ↔
        site.arena.Lists owner child ∨ owner = parent ∧ (child : Int) ∈ ids := by
  refine ensures_get_bind ?_
  dsimp only
  split
  · exact ensures_throw_bind
  · refine Ensures.bind adopt_ensures ?_
    rintro adopted _ ⟨distinct, same, free, rfl⟩
    -- The list was read in front of the adoption, which changes links only.
    have lists := @Arena.childrenOf_setChildren α (site.arena.relink (some parent) adopted) parent
      (by simpa using present) ((site.arena.childrenOf parent).take position.toNat ++ adopted ++
        (site.arena.childrenOf parent).drop position.toNat)
    simp only [Arena.childrenOf_relink] at lists
    have links := Arena.parentOf_relink (some parent) adopted fun child member =>
      (free child member).2.1
    refine ensures_change ⟨sound.evolves_arena ?_ (by simp),
      fun inside => (free parent ((same parent).mpr inside)).1 rfl, fun owner child => ?_⟩
    · refine sound.consistent.attached parent position.toNat distinct
        (fun child member => (free child member).2.2) lists fun id => ?_
      rw [Arena.parentOf_setChildren, links]
    · rw [Arena.Lists, Arena.Lists, lists, ← same]
      split
      · next isParent =>
        -- The children from before are on both sides of the new ones.
        have before : child ∈ site.arena.childrenOf parent ↔
            child ∈ (site.arena.childrenOf parent).take position.toNat ∨
              child ∈ (site.arena.childrenOf parent).drop position.toNat := by
          rw [← mem_append, take_append_drop]
        subst isParent
        simp only [mem_append, before, true_and]
        tauto
      · next isOther => simp [isOther]

/-- Nodes that were below a node already come to stand right below it. -/
theorem attach_narrows {before : Site α} (narrows : before.Narrows site)
    (present : parent < site.arena.size) {ids : List Nat}
    (below : ∀ child ∈ ids, TransGen before.arena.Lists parent child) :
    Ensures (attach parent position (ids.map Int.ofNat)) site fun _ after =>
      before.Narrows after := by
  refine (attach_ensures narrows.sound present).mono ?_
  rintro - after ⟨evolves, -, lists⟩
  refine ⟨narrows.toEvolves.trans evolves, fun owner child listed => ?_⟩
  rcases (lists owner child).mp listed with old | ⟨rfl, member⟩
  · exact narrows.shortens owner child old
  · obtain ⟨id, inside, same⟩ := mem_map.mp member
    exact below child (Int.ofNat.inj same ▸ inside)

theorem detach_ensures (sound : site.Sound) {place : Nat} :
    Ensures (detach parent place) site fun _ => site.Narrows := by
  refine ensures_get_bind ?_
  cases found : (site.arena.childrenOf parent)[place]? with
  | none => simp only [found]; exact ensures_throw
  | some child =>
    simp only [found]
    have present := Arena.lt_size_of_mem_childrenOf (mem_of_getElem? found)
    have lists := Arena.childrenOf_setChildren present ((site.arena.childrenOf parent).eraseIdx place)
    refine ensures_modify_bind ?_
    refine ensures_change (sound.narrows_arena ?_ (by simp) fun other => ?_)
    · refine sound.consistent.detached found (fun id => ?_) (fun id => ?_)
      · rw [Arena.childrenOf_setParent, lists]
      · rw [Arena.parentOf_setParent, Arena.parentOf_setChildren]
        simpa using sound.consistent.child_lt (mem_of_getElem? found)
    · rw [Arena.childrenOf_setParent, lists]
      split
      · next isParent => exact isParent ▸ eraseIdx_subset
      · exact List.Subset.refl _

/-- A node leaves its parent, which is there. -/
theorem detachNode_ensures (sound : site.Sound) {id : Nat} : Ensures (detachNode id) site
    fun result after => site.Narrows after ∧ result.1 < site.arena.size := by
  refine ensures_get_bind ?_
  dsimp only
  split
  · exact ensures_throw
  · exact ensures_throw
  · next parent _ linked _ =>
    refine Ensures.bind (detach_ensures sound) fun _ after narrows => ?_
    exact ensures_pure ⟨narrows, sound.consistent.parent_lt linked⟩

/-- The children of a node leave it, and it tells which they were. -/
theorem orphan_ensures (sound : site.Sound) {id : Nat} (present : id < site.arena.size) :
    Ensures (orphan id) site fun children after =>
      children = site.arena.childrenOf id ∧ site.Narrows after := by
  refine ensures_get_bind ?_
  refine ensures_modify_bind ?_
  have lists := Arena.childrenOf_setChildren present []
  refine ensures_pure ⟨rfl, ?_⟩
  show site.Narrows
    { site with arena := (site.arena.setChildren id []).relink none (site.arena.childrenOf id) }
  refine sound.narrows_arena ?_ (by simp) fun other => ?_
  · refine sound.consistent.orphaned id (fun other => ?_) (fun other => ?_)
    · rw [Arena.childrenOf_relink, lists]
    · rw [Arena.parentOf_relink _ _ fun child member => by
        simpa using sound.consistent.child_lt member, Arena.parentOf_setChildren]
  · rw [Arena.childrenOf_relink, lists]
    split
    · exact nil_subset _
    · exact List.Subset.refl _

/-- A node is made and appended, which has nothing below it and so closes no cycle. -/
theorem append_ensures (sound : site.Sound) {parent : Int} :
    Ensures (append parent value) site fun _ after =>
      site.Evolves after ∧ (site.arena.Loopless → after.arena.Loopless) := by
  refine Ensures.bind (newNode_ensures sound) ?_
  rintro id middle ⟨narrows, rfl, old⟩
  refine Ensures.bind locate_ensures ?_
  rintro index _ ⟨rfl, present, -⟩
  refine ensures_get_bind ?_
  refine Ensures.bind (attach_ensures narrows.sound present) ?_
  rintro _ after ⟨further, apart, lists⟩
  refine ensures_pure ⟨narrows.toEvolves.trans further, fun loopless => ?_⟩
  refine loopless.attached index (· = site.arena.size)
    (fun owner child listed => ?_) fun child isNew path => ?_
  · rcases (lists owner child).mp listed with before | ⟨rfl, new⟩
    · exact .inl (old owner child before)
    · exact .inr ⟨rfl, by simpa [Int.ofNat_inj] using new⟩
  · rw [isNew] at path
    rcases path.cases_head with isParent | ⟨below, listed, -⟩
    · exact apart (by simp [isParent])
    · exact absurd (Arena.lt_size_of_mem_childrenOf listed) (Nat.lt_irrefl _)

theorem appendAll_ensures : ∀ {values : List α} {site : Site α}, site.Sound →
    Ensures (appendAll values) site fun _ after =>
      site.Evolves after ∧ (site.arena.Loopless → after.arena.Loopless)
  | [], _, sound => ensures_pure ⟨sound.narrows_self.toEvolves, id⟩
  | value :: rest, site, sound => by
    refine ensures_get_bind ?_
    refine Ensures.bind (append_ensures sound) ?_
    rintro _ middle ⟨evolves, first⟩
    refine Ensures.bind (appendAll_ensures evolves.sound) ?_
    rintro _ after ⟨further, second⟩
    exact ensures_pure ⟨evolves.trans further, fun loopless => second (first loopless)⟩

section Moves

variable (sound : site.Sound)
include sound

theorem deleteCurrent_ensures : Ensures deleteCurrent site fun _ => site.Narrows := by
  simp only [deleteCurrent, onRoot, bind_assoc, pure_bind]
  refine ensures_get_bind ?_
  split
  · exact ensures_throw_bind
  · refine ensures_get_bind ?_
    refine Ensures.bind (detachNode_ensures sound) ?_
    rintro ⟨parent, place⟩ after ⟨narrows, present⟩
    have still := Nat.lt_of_lt_of_le present narrows.size
    exact ensures_modify (narrows.trans (narrows.sound.narrows_current still))

theorem deleteChildWhere_ensures : Ensures (deleteChildWhere test) site fun _ => site.Narrows := by
  refine Ensures.bind findChild?_ensures ?_
  rintro found _ rfl
  cases found with
  | none => exact ensures_pure sound.narrows_self
  | some place =>
    refine ensures_get_bind ?_
    exact Ensures.bind (detach_ensures sound) fun _ after narrows => ensures_pure narrows

/-- The children of the current node take its place, and the cursor moves to what was its parent. -/
theorem lift_ensures : Ensures lift site fun _ => site.Narrows := by
  simp only [lift, onRoot, bind_assoc, pure_bind]
  refine ensures_get_bind ?_
  split
  · exact ensures_throw_bind
  · refine ensures_get_bind ?_
    refine ensures_get_bind ?_
    refine Ensures.bind (orphan_ensures sound sound.current) ?_
    rintro children bare ⟨rfl, orphaned⟩
    split
    · exact ensures_throw
    · exact ensures_throw
    · next parent _ linked _ =>
      -- The parent is known from before, and no step on the way loses a node.
      have isChild := (sound.consistent.linked site.current parent).mpr linked
      have present := sound.consistent.parent_lt linked
      refine Ensures.bind (detach_ensures orphaned.sound) fun _ open_ detached => ?_
      have left := orphaned.trans detached
      refine Ensures.bind (attach_narrows left (Nat.lt_of_lt_of_le present left.size)
        fun child member => .head isChild (.single member)) fun _ after filled => ?_
      exact ensures_modify (filled.trans
        (filled.sound.narrows_current (Nat.lt_of_lt_of_le present filled.size)))

/-- The children of a child take its place, and the current node takes over its value. -/
theorem absorb_ensures : Ensures (absorb index) site fun _ => site.Narrows := by
  refine ensures_get_bind ?_
  refine Ensures.bind child_ensures ?_
  rintro taken _ ⟨rfl, owner, place, isOwner, -, found⟩
  obtain rfl := Int.ofNat.inj isOwner
  have isChild := mem_of_getElem? found
  refine Ensures.bind (orphan_ensures sound (sound.consistent.child_lt isChild)) ?_
  rintro grandchildren bare ⟨rfl, orphaned⟩
  refine Ensures.bind (detach_ensures orphaned.sound) fun _ open_ detached => ?_
  have left := orphaned.trans detached
  refine Ensures.bind (attach_narrows left (Nat.lt_of_lt_of_le sound.current left.size)
    fun child member => .head isChild (.single member)) fun _ filled all => ?_
  refine ensures_get_bind ?_
  -- The child is out of the tree by now, but still in the arena, and gives its value.
  split
  · refine ensures_modify_bind ?_
    refine ensures_pure (all.trans (all.sound.narrows_arena ?_ (by simp) (by simp)))
    exact all.sound.consistent.congr (by simp) (by simp)
  · exact ensures_throw_bind

theorem moveTo_ensures : Ensures (moveTo id) site fun _ => site.Narrows := by
  refine Ensures.bind locate_ensures ?_
  rintro index _ ⟨rfl, present, -⟩
  exact ensures_modify (sound.narrows_current present)

theorem toRoot_ensures : Ensures toRoot site fun _ => site.Narrows :=
  ensures_modify (sound.narrows_current sound.root)

theorem toParent_ensures : Ensures toParent site fun _ => site.Narrows := by
  refine ensures_get_bind ?_
  split
  · next parent linked =>
    split
    · exact ensures_pure sound.narrows_self
    · refine ensures_modify_bind ?_
      exact ensures_pure (sound.narrows_current (sound.consistent.parent_lt linked))
  · exact ensures_pure sound.narrows_self

theorem toChild_ensures : Ensures (toChild index) site fun _ => site.Narrows := by
  refine ensures_get_bind ?_
  split
  · split
    · next child found =>
      refine ensures_modify_bind ?_
      exact ensures_pure (sound.narrows_current
        (sound.consistent.child_lt (mem_of_getElem? found)))
    · exact ensures_pure sound.narrows_self
  · exact ensures_pure sound.narrows_self

theorem toChildWhere_ensures : Ensures (toChildWhere test) site fun _ => site.Narrows := by
  refine Ensures.bind findChild?_ensures ?_
  rintro found _ rfl
  cases found with
  | none => exact ensures_pure sound.narrows_self
  | some place => exact toChild_ensures sound

end Moves

end Edit

end ThreeAddress

import ThreeAddress.Proofs.Arena.Ownership

/-!
Work on an arena through any number of cursors and views.

Whatever is done, lists of children and links say the same, as long as nothing ends in a fault.
-/

namespace ThreeAddress

open Steps Relation

variable {α : Type}

/-- What can be done through a cursor: changing the arena, moving about, and making another cursor. -/
inductive Task (α : Type) where
  | newNode (value : α)
  | setValue (id : Int) (value : α)
  | append (parent : Int) (value : α)
  | appendAll (values : List α)
  | splice (position : Int) (ids : List Int)
  | deleteCurrent
  | deleteChild (value : α)
  | lift
  | absorb (index : Int)
  | moveTo (id : Int)
  | toRoot
  | toParent
  | toChild (index : Int)
  | toChildValue (value : α)
  /-- Another cursor in the same view. -/
  | cursor
  | view (id : Int)
  /-- A cursor in a view from a child of a node on. -/
  | subTree (id index : Int)

/-- The step of a task, which gives back the root of the view for a new cursor if it makes one. -/
def Task.edit (equal : α → α → Bool) : Task α → Edit α (Option Nat)
  | newNode value => do let _ ← Edit.newNode value; return none
  | setValue id value => do Edit.setValue id value; return none
  | append parent value => do let _ ← Edit.append parent value; return none
  | appendAll values => do let _ ← Edit.appendAll values; return none
  | splice position ids => do Edit.splice position ids; return none
  | deleteCurrent => do Edit.deleteCurrent; return none
  | deleteChild value => do let _ ← Edit.deleteChildWhere fun held => equal held value; return none
  | lift => do Edit.lift; return none
  | absorb index => do let _ ← Edit.absorb index; return none
  | moveTo id => do Edit.moveTo id; return none
  | toRoot => do Edit.toRoot; return none
  | toParent => do let _ ← Edit.toParent; return none
  | toChild index => do let _ ← Edit.toChild index; return none
  | toChildValue value => do let _ ← Edit.toChildWhere fun held => equal held value; return none
  | cursor => do return some (← get).root
  | view id => do return some (← Edit.locate id)
  | subTree id index => do return some (← Edit.child id index)

/-- A task that puts a node below itself: what it puts below the current node stands above that node. -/
def Task.Knots (arena : Arena α) (current : Nat) : Task α → Prop
  | .splice _ ids => ∃ id : Nat, (id : Int) ∈ ids ∧ ReflTransGen arena.Lists id current
  | _ => False

/-- An arena that is shared by cursors: for each the root of its view, and its current node. -/
structure Session (α : Type) where
  arena : Arena α
  cursors : List (Nat × Nat)
deriving DecidableEq, Repr

namespace Session

/-- The session behind a task through one of the cursors. There is none behind a fault. -/
def perform (equal : α → α → Bool) (session : Session α) (order : Nat × Task α) :
    Option (Session α) := do
  let (root, current) ← session.cursors[order.1]?
  match (order.2.edit equal).run { arena := session.arena, root, current } with
  | (.ok opened, site) =>
    -- A new cursor starts on the root of its view.
    return { arena := site.arena
             cursors := session.cursors.set order.1 (site.root, site.current) ++
               opened.toList.map fun root => (root, root) }
  | (.error _, _) => none

/-- The session behind tasks in a row, which starts with a tree of one node and a cursor on it. -/
def run (equal : α → α → Bool) (value : α) (orders : List (Nat × Task α)) : Option (Session α) := do
  let site ← (Site.create value (some equal)).toOption
  orders.foldlM (perform equal) { arena := site.arena, cursors := [(site.root, site.current)] }

/-- A session all cursors of which can be worked with. -/
structure Sound (session : Session α) : Prop where
  consistent : session.arena.Consistent
  cursors : ∀ cursor ∈ session.cursors,
    cursor.1 < session.arena.size ∧ cursor.2 < session.arena.size

end Session

/-- A site behind a task, which is as sound as before. A new view starts at a node that is there, and a task that ties no knot closes no cycle. -/
def Site.Leads (site : Site α) (knots : Prop) (opened : Option Nat) (after : Site α) : Prop :=
  site.Evolves after ∧ (∀ root, opened = some root → root < after.arena.size) ∧
    (site.arena.Loopless → (after.arena.Loopless ↔ ¬ knots))

theorem Task.edit_ensures {equal : α → α → Bool} {site : Site α} (sound : site.Sound)
    (task : Task α) :
    Ensures (task.edit equal) site (site.Leads (task.Knots site.arena site.current)) := by
  -- All but the last three tasks make no cursor, and all but one shorten ways or add new nodes.
  have plain : ∀ {γ : Type} {step : Edit α γ}, Ensures step site (fun _ after =>
        site.Evolves after ∧ (site.arena.Loopless → after.arena.Loopless)) →
      Ensures (step >>= fun _ => (pure none : Edit α (Option Nat))) site (site.Leads False) := by
    intro γ step ensures
    refine Ensures.bind ensures ?_
    rintro - after ⟨evolves, kept⟩
    exact ensures_pure ⟨evolves, by simp, fun loopless => ⟨fun _ => not_false, fun _ => kept loopless⟩⟩
  have narrow : ∀ {γ : Type} {step : Edit α γ}, Ensures step site (fun _ after => site.Narrows after) →
      Ensures (step >>= fun _ => (pure none : Edit α (Option Nat))) site (site.Leads False) :=
    fun ensures => plain (ensures.mono fun _ _ narrows =>
      ⟨narrows.toEvolves, fun loopless => loopless.of_below narrows.shortens⟩)
  have opens : ∀ {root : Nat}, root < site.arena.size →
      Ensures (pure (some root) : Edit α (Option Nat)) site (site.Leads False) := by
    intro root present
    refine ensures_pure ⟨sound.narrows_self.toEvolves, ?_,
      fun loopless => ⟨fun _ => not_false, fun _ => loopless⟩⟩
    rintro root ⟨rfl⟩
    exact present
  cases task with
  | newNode => exact narrow ((Edit.newNode_ensures sound).mono fun _ _ => And.left)
  | setValue => exact narrow (Edit.setValue_ensures sound)
  | append => exact plain (Edit.append_ensures sound)
  | appendAll => exact plain (Edit.appendAll_ensures sound)
  | splice position ids =>
    refine Ensures.bind (ensures_get_bind (Edit.attach_ensures sound sound.current)) ?_
    rintro - after ⟨evolves, -, lists⟩
    refine ensures_pure ⟨evolves, by simp, fun loopless => ⟨?_, fun free => ?_⟩⟩
    · rintro closesNone ⟨id, inside, above⟩
      exact closesNone _ (Arena.cycle_of_attached site.current
        (fun owner child old => (lists owner child).mpr (.inl old))
        ((lists site.current id).mpr (.inr ⟨rfl, inside⟩)) above)
    · exact loopless.attached site.current (fun child => (child : Int) ∈ ids)
        (fun owner child => (lists owner child).mp) fun child inside above => free ⟨child, inside, above⟩
  | deleteCurrent => exact narrow (Edit.deleteCurrent_ensures sound)
  | deleteChild => exact narrow (Edit.deleteChildWhere_ensures sound)
  | lift => exact narrow (Edit.lift_ensures sound)
  | absorb => exact narrow (Edit.absorb_ensures sound)
  | moveTo => exact narrow (Edit.moveTo_ensures sound)
  | toRoot => exact narrow (Edit.toRoot_ensures sound)
  | toParent => exact narrow (Edit.toParent_ensures sound)
  | toChild => exact narrow (Edit.toChild_ensures sound)
  | toChildValue => exact narrow (Edit.toChildWhere_ensures sound)
  | cursor => exact ensures_get_bind (opens sound.root)
  | view =>
    refine Ensures.bind Edit.locate_ensures ?_
    rintro index site ⟨rfl, present, -⟩
    exact opens present
  | subTree =>
    refine Ensures.bind Edit.child_ensures ?_
    rintro child site ⟨rfl, owner, place, -, -, found⟩
    exact opens (sound.consistent.child_lt (List.mem_of_getElem? found))

namespace Session

variable {equal : α → α → Bool}

/-- What an order that is performed leaves: the site of its cursor evolves, and a new cursor stands in it. -/
theorem Sound.site {session after : Session α} (sound : session.Sound) {order : Nat × Task α}
    (performed : session.perform equal order = some after) :
    ∃ root current opened site, session.cursors[order.1]? = some (root, current) ∧
      after = ⟨site.arena, session.cursors.set order.1 (site.root, site.current) ++
        opened.toList.map fun root => (root, root)⟩ ∧
      Site.Leads ⟨session.arena, root, current⟩ (order.2.Knots session.arena current) opened site := by
  obtain ⟨index, task⟩ := order
  simp only [Session.perform, Option.bind_eq_bind, Option.bind_eq_some_iff] at performed
  obtain ⟨⟨root, current⟩, found, performed⟩ := performed
  obtain ⟨rootIn, currentIn⟩ := sound.cursors _ (List.mem_of_getElem? found)
  split at performed
  · next opened site ran =>
    cases performed
    exact ⟨root, current, opened, site, found, rfl,
      task.edit_ensures ⟨sound.consistent, rootIn, currentIn⟩ _ _ ran⟩
  · cases performed

theorem Sound.perform {session after : Session α} (sound : session.Sound)
    {order : Nat × Task α} (performed : session.perform equal order = some after) :
    after.Sound := by
  obtain ⟨root, current, opened, site, -, rfl, evolves, fresh, -⟩ := sound.site performed
  refine ⟨evolves.sound.consistent, fun cursor member => ?_⟩
  rcases List.mem_append.mp member with old | new
  · -- The other cursors stay where they are, and no node is lost.
    rcases List.mem_or_eq_of_mem_set old with kept | rfl
    · obtain ⟨first, second⟩ := sound.cursors cursor kept
      exact ⟨Nat.lt_of_lt_of_le first evolves.size, Nat.lt_of_lt_of_le second evolves.size⟩
    · exact ⟨evolves.sound.root, evolves.sound.current⟩
  · obtain ⟨start, isNew, rfl⟩ := List.mem_map.mp new
    have present := fresh start (by simpa using isNew)
    exact ⟨present, present⟩

theorem Sound.performAll {orders : List (Nat × Task α)} :
    ∀ {session after : Session α}, session.Sound →
      orders.foldlM (Session.perform equal) session = some after → after.Sound := by
  induction orders with
  | nil =>
    rintro session after sound ⟨rfl⟩
    exact sound
  | cons order rest ih =>
    intro session after sound ran
    rw [List.foldlM_cons, Option.bind_eq_bind, Option.bind_eq_some_iff] at ran
    obtain ⟨middle, performed, others⟩ := ran
    exact ih (sound.perform performed) others

theorem sound_of_run {value : α} {orders : List (Nat × Task α)}
    {session : Session α} (ran : Session.run equal value orders = some session) :
    session.Sound := by
  refine Sound.performAll ⟨Arena.Consistent.single value, ?_⟩ ran
  rintro cursor member
  cases List.mem_singleton.mp member
  exact ⟨Nat.zero_lt_one, Nat.zero_lt_one⟩

/--
Whatever is done, a node is a child of another exactly if it links to it, and a child once.

So no node is a child of two nodes, and every node with a parent is found at its place.
-/
theorem run_keeps_ownership {equal : α → α → Bool} {value : α} {orders : List (Nat × Task α)}
    {session : Session α} (ran : Session.run equal value orders = some session) :
    (∀ child parent, child ∈ session.arena.childrenOf parent ↔
        session.arena.parentOf child = some parent) ∧
      (∀ parent, (session.arena.childrenOf parent).Nodup) ∧
      (∀ child one other, child ∈ session.arena.childrenOf one →
        child ∈ session.arena.childrenOf other → one = other) ∧
      ∀ child parent, session.arena.parentOf child = some parent →
        ∃ place, session.arena.position? child = some place ∧
          (session.arena.childrenOf parent)[place]? = some child := by
  have consistent := (sound_of_run ran).consistent
  exact ⟨consistent.linked, consistent.distinct, fun _ _ _ => consistent.parent_unique,
    fun _ _ => consistent.position?_eq_some⟩

/-- Work through three cursors: a node is lifted out of the tree, gets a child there, comes back, and is absorbed. -/
def liftedAndAbsorbed : List (Nat × Task Nat) :=
  [(0, .appendAll [10, 20, 30]), (0, .append 2 21), (0, .append 2 22), (0, .view 2), (0, .toChild 1),
    (0, .lift), (1, .appendAll [23]), (0, .splice 1 [2]), (0, .subTree 0 1), (0, .absorb 1),
    (0, .deleteChild 30), (2, .splice 0 [3])]

/-- In the end a node has children from three places, and the one that was absorbed has another child. -/
theorem run_keeps_ownership_lifted : ∃ session,
    Session.run (· == ·) 0 liftedAndAbsorbed = some session ∧
      session.cursors = [(0, 0), (2, 2), (2, 2)] ∧
      session.arena.childrenOf 0 = [1, 6, 4, 5] ∧ session.arena.childrenOf 2 = [3] ∧
      (∀ child parent, child ∈ session.arena.childrenOf parent ↔
        session.arena.parentOf child = some parent) ∧
      ∃ place, session.arena.position? 5 = some place ∧
        (session.arena.childrenOf 0)[place]? = some 5 := by
  have computed : (Session.run (· == ·) 0 liftedAndAbsorbed).map (fun session =>
      (session.cursors, session.arena.childrenOf 0, session.arena.childrenOf 2)) =
      some ([(0, 0), (2, 2), (2, 2)], [1, 6, 4, 5], [3]) := by decide +kernel
  obtain ⟨session, ran, same⟩ := Option.map_eq_some_iff.mp computed
  simp only [Prod.mk.injEq] at same
  obtain ⟨cursors, first, second⟩ := same
  obtain ⟨linked, -, -, placed⟩ := run_keeps_ownership ran
  refine ⟨session, ran, cursors, first, second, linked, placed 5 0 ?_⟩
  exact (linked 5 0).mp (by simp [first])

end Session

end ThreeAddress

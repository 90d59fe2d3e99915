import ThreeAddress.Arena.Basic

/-!
Cursors: moving about in an arena and changing it at one place.

A cursor belongs to a view, which is the part of an arena below some root.
-/

namespace ThreeAddress

/-- An arena with the root of a view and the current node of a cursor. -/
structure Site (α : Type) where
  arena : Arena α
  root : Nat
  current : Nat
deriving DecidableEq, Repr

/-- A step of work on an arena. A fault keeps the changes made before it. -/
abbrev Edit (α β : Type) := ExceptT Fault (StateM (Site α)) β

/-- A tree of one node, with a cursor on it. Values must be comparable. -/
def Site.create {α : Type} (value : α) (equal : Option (α → α → Bool)) : Except Fault (Site α) :=
  if equal.isSome then .ok { arena := Arena.single value, root := 0, current := 0 }
  else .error .missingEquality

namespace Edit

variable {α : Type}

def change (step : Arena α → Arena α) : Edit α Unit :=
  modify fun site => { site with arena := step site.arena }

/-- The number of a node, which must be there. -/
def locate (id : Int) : Edit α Nat := do
  match id with
  | .ofNat index => if index < (← get).arena.size then return index else throw (.noSuchNode id)
  | .negSucc _ => throw (.noSuchNode id)

/-- A node, which must be there. -/
def node (id : Int) : Edit α (ArenaNode α) := do
  let index ← locate id
  match (← get).arena.get? index with
  | some node => return node
  | none => throw (.noSuchNode id)

/-- Makes a node without parent and children. -/
def newNode (value : α) : Edit α Nat := do
  let id := (← get).arena.size
  change fun arena => arena.push value
  return id

def child (id index : Int) : Edit α Nat := do
  let children := (← node id).children
  match index with
  | .ofNat position =>
    match children[position]? with
    | some child => return child
    | none => throw (.noSuchChild id index)
  | .negSucc _ => throw (.noSuchChild id index)

def setValue (id : Int) (value : α) : Edit α Unit := do
  let index ← locate id
  change fun arena => arena.setValue index value

/-- Links nodes to a new parent one by one. They must have no parent. -/
def adopt (parent : Nat) : List Int → Edit α (List Nat)
  | [] => return []
  | id :: rest => do
    -- A node is linked as soon as it is checked, so the same node cannot be taken twice.
    if id = parent then throw .ownChild
    let index ← locate id
    match (← get).arena.parentOf index with
    | some owner => throw (.alreadyOwned id owner)
    | none => do
      change fun arena => arena.setParent index (some parent)
      return index :: (← adopt parent rest)

/-- Puts nodes among the children of a node. -/
def attach (parent : Nat) (position : Int) (ids : List Int) : Edit α Unit := do
  let children := (← get).arena.childrenOf parent
  if position < 0 || children.length < position then
    throw (.insertPosition position parent)
  -- The children are those from before, since linking changes no list.
  let adopted ← adopt parent ids
  change fun arena => arena.setChildren parent
    (children.take position.toNat ++ adopted ++ children.drop position.toNat)

def detach (parent position : Nat) : Edit α Unit := do
  let children := (← get).arena.childrenOf parent
  match children[position]? with
  | none => throw .outOfBounds
  | some child => do
    change fun arena => arena.setChildren parent (children.eraseIdx position)
    change fun arena => arena.setParent child none

/-- Takes a node away from its parent, and gives back the parent and the place it had there. -/
def detachNode (id : Nat) : Edit α (Nat × Nat) := do
  let arena := (← get).arena
  match arena.parentOf id, arena.position? id with
  | none, _ => throw (.noSuchNode (-1))
  | some _, none => throw .outOfBounds
  | some parent, some position => do
    detach parent position
    return (parent, position)

def orphan (id : Nat) : Edit α (List Nat) := do
  let children := (← get).arena.childrenOf id
  change fun arena => children.foldl (fun arena child => arena.setParent child none)
    (arena.setChildren id [])
  return children

def append (parent : Int) (value : α) : Edit α Nat := do
  let id ← newNode value
  let index ← locate parent
  attach index ((← get).arena.childrenOf index).length [(id : Int)]
  return id

def onRoot : Edit α Bool := do
  let site ← get
  return site.current == site.root

def moveTo (id : Int) : Edit α Unit := do
  let index ← locate id
  modify fun site => { site with current := index }

def toRoot : Edit α Unit :=
  modify fun site => { site with current := site.root }

/-- Moves the cursor to the parent, unless it is on the root or there is none. -/
def toParent : Edit α Bool := do
  let site ← get
  match site.arena.parentOf site.current with
  | some parent =>
    if site.current = site.root then return false
    else do
      set { site with current := parent }
      return true
  | none => return false

/-- Moves the cursor to a child, if there is one at this place. -/
def toChild (index : Int) : Edit α Bool := do
  let site ← get
  match index with
  | .ofNat position =>
    match (site.arena.childrenOf site.current)[position]? with
    | some child => do
      set { site with current := child }
      return true
    | none => return false
  | .negSucc _ => return false

def findChild? (test : α → Bool) : Edit α (Option Nat) := do
  let site ← get
  return (site.arena.childrenOf site.current).findIdx? fun child =>
    (site.arena.get? child).any fun node => test node.value

/-- Moves the cursor to the first child with a value that passes a test. -/
def toChildWhere (test : α → Bool) : Edit α Bool := do
  match ← findChild? test with
  | some position => toChild position
  | none => return false

/-- Makes nodes and appends them to the children of the current node. -/
def appendAll : List α → Edit α (List Nat)
  | [] => return []
  | value :: rest => do
    let id ← append (← get).current value
    return id :: (← appendAll rest)

/-- Puts detached nodes among the children of the current node. -/
def splice (position : Int) (ids : List Int) : Edit α Unit := do
  attach (← get).current position ids

/-- Removes the current node and all below it. The cursor moves to the parent. -/
def deleteCurrent : Edit α Unit := do
  -- A view always keeps its root.
  if ← onRoot then throw .deleteRoot
  let (parent, _) ← detachNode (← get).current
  modify fun site => { site with current := parent }

/-- Removes the first child with a value that passes a test. -/
def deleteChildWhere (test : α → Bool) : Edit α Bool := do
  match ← findChild? test with
  | some position => do
    detach (← get).current position
    return true
  | none => return false

/-- Puts the children of the current node in its place. The cursor moves to the parent. -/
def lift : Edit α Unit := do
  if ← onRoot then throw .liftRoot
  let id := (← get).current
  let arena := (← get).arena
  -- The children are cut off first and find their place only once that of the node is free.
  let children ← orphan id
  match arena.parentOf id, arena.position? id with
  | none, _ => throw (.noSuchNode (-1))
  | some _, none => throw .outOfBounds
  | some parent, some position => do
    detach parent position
    attach parent position (children.map Int.ofNat)
    modify fun site => { site with current := parent }

/--
The current node takes over the value of a child, whose children take its place.

The result is the place of the last of them, or the place before where there are none.
-/
def absorb (index : Int) : Edit α Int := do
  let current := (← get).current
  let taken ← child current index
  -- The child gives up its own children before it leaves, and its value stays readable.
  let grandchildren ← orphan taken
  detach current index.toNat
  attach current index (grandchildren.map Int.ofNat)
  match (← get).arena.get? taken with
  | some node => change fun arena => arena.setValue current node.value
  | none => throw (.noSuchNode taken)
  return index + grandchildren.length - 1

end Edit

end ThreeAddress

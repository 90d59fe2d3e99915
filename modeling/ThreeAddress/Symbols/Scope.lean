import ThreeAddress.Token

/-!
Scopes of names.

Scopes are opened and closed like a stack.
A closed scope stays: the body of a function is one, and its names can still be looked up.
-/

namespace ThreeAddress

/-- A scope: its name, the scopes around it from the inside out, and its own names. -/
structure Scope where
  name : Text
  enclosing : List Nat := []
  bindings : List (Text × Handle) := []
deriving DecidableEq, Repr

namespace Scope

def text (scope : Scope) : Text :=
  "<scope " ++ scope.name ++ ">"

/-- The number of names in a scope, those around it not counted. -/
def size (scope : Scope) : Nat :=
  scope.bindings.length

/-- The handle of a name in this scope only. -/
def lookup? (scope : Scope) (name : Text) : Option Handle :=
  scope.bindings.lookup name

def define (scope : Scope) (name : Text) (handle : Handle) : Scope :=
  { scope with bindings := scope.bindings ++ [(name, handle)] }

end Scope

/-- All scopes ever opened, the global one first, and those that are open, from the inside out. -/
structure ScopeTree where
  scopes : List Scope := []
  path : List Nat := []
deriving DecidableEq, Repr

namespace ScopeTree

def empty : ScopeTree := {}

def scope? (tree : ScopeTree) (id : Nat) : Option Scope :=
  tree.scopes[id]?

def nameOf (tree : ScopeTree) (id : Nat) : Text :=
  (tree.scope? id).elim [] Scope.name

def current (tree : ScopeTree) : Except Fault Nat :=
  match tree.path with
  | [] => .error .emptyScopes
  | id :: _ => .ok id

def globals (tree : ScopeTree) : Except Fault Nat :=
  if tree.scopes.isEmpty then .error .noGlobalScope else .ok 0

def push (tree : ScopeTree) (name : Text) : ScopeTree :=
  -- A scope remembers the path to it, so that its names resolve in the same way when it is closed.
  { scopes := tree.scopes ++ [{ name, enclosing := tree.path }]
    path := tree.scopes.length :: tree.path }

/-- Closes the current scope. The global scope stays open. -/
def pop (tree : ScopeTree) : Except Fault (Nat × ScopeTree) :=
  match tree.path with
  -- At least one scope stays open.
  | id :: outer :: rest => .ok (id, { tree with path := outer :: rest })
  | _ => .error .popGlobalScope

def parent? (tree : ScopeTree) (id : Nat) : Option Nat := do
  (← tree.scope? id).enclosing.head?

def lookup? (tree : ScopeTree) (id : Nat) (name : Text) : Option Handle := do
  (← tree.scope? id).lookup? name

def resolve? (tree : ScopeTree) (id : Nat) (name : Text) : Option (Handle × Nat) := do
  let scope ← tree.scope? id
  -- The nearest scope that binds the name hides those further out.
  (id :: scope.enclosing).findSome? fun id => (tree.lookup? id name).map fun handle => (handle, id)

def define (tree : ScopeTree) (id : Nat) (name : Text) (handle : Handle) : ScopeTree :=
  { tree with scopes := tree.scopes.modify id fun scope => scope.define name handle }

end ScopeTree

end ThreeAddress

import ThreeAddress.Proofs.Language.Lexing

/-!
Scopes are closed only where one is open.

Whatever words follow each other, the global scope stays at the bottom, and a function that is being read has a scope above it that no word but its last brace closes.
-/

namespace ThreeAddress

open List

namespace ScopeTree

variable {tree : ScopeTree}

/-- The names of the open scopes, from the inside out. -/
def openNames (tree : ScopeTree) : List Text := tree.path.map tree.nameOf

/-- The open scopes are among all scopes. -/
def Bounded (tree : ScopeTree) : Prop := ∀ id ∈ tree.path, id < tree.scopes.length

theorem bounded_define (bounded : tree.Bounded) (id : Nat) (name : Text) (handle : Handle) :
    (tree.define id name handle).Bounded := by
  intro open_ member
  simp only [define, length_modify]
  exact bounded open_ member

theorem openNames_define (id : Nat) (name : Text) (handle : Handle) :
    (tree.define id name handle).openNames = tree.openNames :=
  map_congr_left fun other _ => nameOf_define tree id name handle other

theorem bounded_push (bounded : tree.Bounded) (name : Text) : (tree.push name).Bounded := by
  intro id member
  simp only [push, length_append, length_singleton, mem_cons] at member ⊢
  rcases member with rfl | before
  · omega
  · have := bounded id before
    omega

theorem openNames_push (bounded : tree.Bounded) (name : Text) :
    (tree.push name).openNames = name :: tree.openNames := by
  have new : (tree.push name).nameOf tree.scopes.length = name := by
    simp [nameOf, scope?, push]
  have old : ∀ id ∈ tree.path, (tree.push name).nameOf id = tree.nameOf id := by
    intro id member
    simp only [nameOf, scope?, push, getElem?_append_left (bounded id member)]
  rw [openNames, show (tree.push name).path = tree.scopes.length :: tree.path from rfl,
    map_cons, new, map_congr_left old, openNames]

end ScopeTree

namespace SymbolTable

variable {table after : SymbolTable} {name : Text} {rest : List Text}

theorem scopeName_eq (names : table.scopes.openNames = name :: rest) : table.scopeName = name := by
  obtain ⟨id, others, path, named, -⟩ := map_eq_cons_iff.mp names
  rw [scopeName, here, path]
  exact named

theorem pop_of_openNames {outer : Text} (names : table.scopes.openNames = name :: outer :: rest)
    : ∃ popped, table.pop = .ok popped := by
  obtain ⟨id, others, path, -, further⟩ := map_eq_cons_iff.mp names
  obtain ⟨next, more, rfl, -, -⟩ := map_eq_cons_iff.mp further
  exact ⟨_, by rw [pop, ScopeTree.pop, path]; rfl⟩

theorem openNames_pop {scope : Nat} (popped : table.pop = .ok (scope, after)) :
    (table.scopes.Bounded → after.scopes.Bounded) ∧ after.scopes.openNames ≠ [] ∧
      table.scopes.openNames = table.scopeName :: after.scopes.openNames := by
  rw [pop, ScopeTree.pop] at popped
  split at popped
  · next id outer rest path =>
    cases popped
    refine ⟨fun bounded open_ member => ?_, cons_ne_nil _ _, ?_⟩
    · exact bounded open_ (by rw [path]; exact mem_cons_of_mem _ member)
    · rw [ScopeTree.openNames, scopeName, here, path]
      rfl
  · cases popped

end SymbolTable

namespace Language

/-- The global scope is open at the bottom, and above it, while a function is being read, one that is no main block. -/
structure Grounded (tree : ScopeTree) (reading : Prop) : Prop where
  bounded : tree.Bounded
  names : ∃ inner, tree.openNames = inner ++ [SymbolTable.globalScope] ∧
    (reading → ∃ name ∈ inner, name ≠ mainScope)

namespace Grounded

variable {tree : ScopeTree} {reading : Prop}

theorem start (idle : ¬ reading) : Grounded SymbolTable.empty.scopes reading where
  bounded := by
    intro id member
    cases mem_singleton.mp member
    exact Nat.zero_lt_one
  names := ⟨[], rfl, fun inFunction => absurd inFunction idle⟩

theorem define (grounded : Grounded tree reading) (id : Nat) (name : Text) (handle : Handle) :
    Grounded (tree.define id name handle) reading := by
  refine ⟨ScopeTree.bounded_define grounded.bounded id name handle, ?_⟩
  rw [ScopeTree.openNames_define]
  exact grounded.names

variable {later : Prop}

/-- Any scope may be opened, and that of a function is no main block. -/
theorem push (grounded : Grounded tree reading) (name : Text)
    (still : later → reading ∨ name ≠ mainScope) : Grounded (tree.push name) later := by
  obtain ⟨inner, names, body⟩ := grounded.names
  refine ⟨ScopeTree.bounded_push grounded.bounded name, name :: inner, ?_, fun isLater => ?_⟩
  · rw [ScopeTree.openNames_push grounded.bounded, names, cons_append]
  · rcases still isLater with before | other
    · obtain ⟨held, member, different⟩ := body before
      exact ⟨held, mem_cons_of_mem _ member, different⟩
    · exact ⟨name, mem_cons_self, other⟩

variable {table after : SymbolTable} (grounded : Grounded table.scopes reading)
include grounded

theorem exists_pop (inner : table.scopeName = mainScope ∨ reading) :
    ∃ popped, table.pop = .ok popped := by
  obtain ⟨names, split, body⟩ := grounded.names
  cases names with
  | nil =>
    rcases inner with inMain | inFunction
    · rw [SymbolTable.scopeName_eq split] at inMain
      exact absurd inMain (by decide)
    · obtain ⟨name, member, -⟩ := body inFunction
      cases member
  | cons name rest =>
    cases rest with
    | nil | cons => exact SymbolTable.pop_of_openNames split

theorem pop {scope : Nat} (popped : table.pop = .ok (scope, after))
    (still : later → reading ∧ table.scopeName = mainScope) : Grounded after.scopes later := by
  obtain ⟨bounded, filled, closed⟩ := SymbolTable.openNames_pop popped
  obtain ⟨inner, split, body⟩ := grounded.names
  rw [closed] at split
  cases inner with
  | nil => exact absurd (List.cons.inj split).2 filled
  | cons name rest =>
    rw [cons_append, List.cons.injEq] at split
    obtain ⟨isFirst, others⟩ := split
    refine ⟨bounded grounded.bounded, rest, others, fun isLater => ?_⟩
    obtain ⟨inFunction, inMain⟩ := still isLater
    obtain ⟨held, member, different⟩ := body inFunction
    rcases mem_cons.mp member with rfl | below
    · exact absurd (isFirst ▸ inMain) different
    · exact ⟨held, below, different⟩

end Grounded

def LexerState.Guarded (state : LexerState) : Prop :=
  Grounded state.table.scopes (state.function.isSome = true)

variable {state after : LexerState} {token : Token}

/-- Every word keeps the scopes grounded, as long as no function has the name of a main block. -/
theorem Step.guarded (step : Step state token after) (guarded : state.Guarded)
    (named : token.category = identifier → token.lexeme ≠ mainScope) : after.Guarded := by
  cases step with
  | plain => exact guarded
  | literal => exact guarded
  | resolved => exact guarded
  | newVariable _ _ _ declared =>
    obtain ⟨-, rfl⟩ := SymbolTable.declare_ok declared
    exact guarded.define ..
  | newFunction category _ _ declared =>
    obtain ⟨-, rfl⟩ := SymbolTable.declare_ok declared
    exact (guarded.define ..).push token.lexeme fun _ => .inr (named category)
  | newParameter _ _ _ _ _ _ added =>
    obtain ⟨_, made, rfl⟩ := SymbolTable.addParameter_eq added
    obtain ⟨-, rfl⟩ := SymbolTable.declare_ok made
    exact guarded.define ..
  | start => exact guarded.push mainScope .inl
  | stop _ inMain popped => exact guarded.pop popped fun inFunction => ⟨inFunction, inMain⟩
  | closeParen => exact guarded
  | openBrace => exact guarded
  | closeBrace => exact guarded
  | endFunction _ _ _ popped => exact guarded.pop popped nofun

end Language

end ThreeAddress

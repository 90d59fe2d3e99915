import ThreeAddress.Proofs.Syntax.Derivation
import ThreeAddress.Proofs.Syntax.Machine

/-!
The tree that a parser makes.

The nodes on the stack are leaves that wait for their token or their children, and all other nodes are as they will stay.
So once the stack is empty the arena holds a tree, whose nodes were put together in the order of the steps.
-/

namespace ThreeAddress

open List

namespace Parser

/-- The entries of a stack stand for leaves of an arena in which children come behind their parents, and lists and links say the same. -/
structure Sprouts (stack : Stack) (arena : Arena Label) : Prop where
  consistent : arena.Consistent
  later : ∀ parent < arena.size, ∀ child ∈ arena.childrenOf parent, parent < child
  top : arena.parentOf 0 = none
  distinct : (stack.map Prod.fst).Nodup
  bare : ∀ entry ∈ stack, arena.valueOf? entry.1 = some { symbol := entry.2 } ∧
    arena.childrenOf entry.1 = []

/-- Trees that grow from the entries of a stack, while a parser goes from one state to another with an empty stack. -/
inductive Grows (parser : Parser) : Stack → ParseState → List SyntaxTree → ParseState → Prop where
  | done (state : ParseState) : Grows parser [] state [] state
  | matched (id : Nat) (name : Text) {rest : Stack} {state last : ParseState} {token : Token}
      {source : TokenSource} {trees : List SyntaxTree} (more : state.token.isEnd = false)
      (requested : request state.source = .ok (token, source))
      (behind : Grows parser rest (state.matched id name token source) trees last) :
      Grows parser ((id, .terminal name state.token.category) :: rest) state
        (.node id { symbol := .terminal name state.token.category, token := some state.token } [] ::
          trees) last
  | expanded (id : Nat) {name : Text} {rest : Stack} {state last : ParseState}
      {production : Production} {children trees : List SyntaxTree}
      (predicted : parser.table.production? name state.token.category = some production)
      (many : children.length = production.body.length)
      (behind : Grows parser (numbered production state ++ rest) (state.expanded id production)
        (children ++ trees) last) :
      Grows parser ((id, .nonterminal name) :: rest) state
        (.node id { symbol := .nonterminal name } children :: trees) last

variable {parser : Parser} {stack rest : Stack} {state last : ParseState} {trees : List SyntaxTree}

theorem Grows.roots (grows : parser.Grows stack state trees last) :
    trees.map (fun tree => (tree.id, SyntaxTree.symbol tree)) = stack := by
  induction grows with
  | done => rfl
  | matched id name _ _ _ ih => exact congrArg (_ :: ·) ih
  | expanded id _ many _ ih =>
    rw [map_append] at ih
    have others := (append_inj ih (by simp [many, numbered])).2
    exact congrArg (_ :: ·) others

variable {id : Nat}

theorem Grows.children {production : Production} {children : List SyntaxTree}
    (behind : parser.Grows (numbered production state ++ rest) (state.expanded id production)
      (children ++ trees) last) (many : children.length = production.body.length) :
    children.map (fun tree => (tree.id, SyntaxTree.symbol tree)) = numbered production state := by
  have roots := behind.roots
  rw [map_append] at roots
  exact (append_inj roots (by simp [many, numbered])).1

/-- A run of steps that empties the stack makes trees. -/
theorem grows_of_run {bound : Nat} (ran : parser.run bound stack state = .ok last) :
    ∃ trees, parser.Grows stack state trees last := by
  induction bound generalizing stack state with
  | zero =>
    cases stack with
    | nil => cases ran; exact ⟨[], .done _⟩
    | cons entry rest => cases ran
  | succ bound ih =>
    cases stack with
    | nil => cases ran; exact ⟨[], .done _⟩
    | cons entry rest =>
      rw [run_cons] at ran
      have moves := parser.step_moves (entry :: rest) state
      generalize parser.step (entry :: rest) state = result at moves ran
      cases moves with
      | ended | unexpected | unread | refused => cases ran
      | matched id name _ more requested =>
        obtain ⟨trees, behind⟩ := ih ran
        exact ⟨_, .matched id name more requested behind⟩
      | expanded id _ predicted =>
        obtain ⟨trees, behind⟩ := ih ran
        -- The trees for the symbols of the body become the children.
        obtain ⟨children, others, rfl, isBody, -⟩ := map_eq_append_iff.mp behind.roots
        refine ⟨_, .expanded id predicted ?_ behind⟩
        have length := congrArg List.length isBody
        simpa [numbered] using length

/-! What the arena holds. -/

theorem Sprouts.initial (parser : Parser) (token : Token) (source : TokenSource) :
    Sprouts (parser.initial token source).1 (parser.initial token source).2.arena := by
  refine ⟨.single _, ?_, rfl, nodup_singleton _, ?_⟩
  · intro parent inside child member
    obtain rfl : parent = 0 := Nat.lt_one_iff.mp inside
    cases member
  · intro entry member
    cases mem_singleton.mp member
    exact ⟨rfl, rfl⟩

theorem Sprouts.present (sprouts : Sprouts stack state.arena) {entry : Nat × Symbol}
    (member : entry ∈ stack) : entry.1 < state.arena.size :=
  Arena.lt_size_of_valueOf? (sprouts.bare entry member).1

variable {symbol : Symbol}

theorem Sprouts.matched (sprouts : Sprouts ((id, symbol) :: rest) state.arena) (name : Text)
    (token : Token) (source : TokenSource)
    : Sprouts rest (state.matched id name token source).arena := by
  obtain ⟨consistent, later, top, distinct, bare⟩ := sprouts
  obtain ⟨apart, others⟩ : id ∉ rest.map Prod.fst ∧ (rest.map Prod.fst).Nodup :=
    nodup_cons.mp distinct
  refine ⟨consistent.congr (by simp [ParseState.matched]) (by simp [ParseState.matched]),
    by simpa [ParseState.matched] using later, by simpa [ParseState.matched] using top, others, ?_⟩
  intro entry member
  -- Only the value of the node that is done changes.
  have other : entry.1 ≠ id := by
    rintro rfl
    exact apart (mem_map_of_mem member)
  have kept : (state.matched id name token source).arena.get? entry.1 =
      state.arena.get? entry.1 := by
    rw [ParseState.matched, Arena.setValue, Arena.get?_modify, if_neg other]
  rw [Arena.valueOf?_congr kept, Arena.childrenOf_congr kept]
  exact bare entry (mem_cons_of_mem _ member)

theorem Sprouts.expanded (sprouts : Sprouts ((id, symbol) :: rest) state.arena)
    (production : Production) :
    Sprouts (numbered production state ++ rest) (state.expanded id production).arena := by
  have present : id < state.arena.size := sprouts.present mem_cons_self
  obtain ⟨consistent, later, top, distinct, bare⟩ := sprouts
  obtain ⟨apart, others⟩ : id ∉ rest.map Prod.fst ∧ (rest.map Prod.fst).Nodup :=
    nodup_cons.mp distinct
  refine ⟨consistent.appendAll present _, ?_, ?_, ?_, ?_⟩
  · intro parent _ child member
    rw [ParseState.expanded, Arena.childrenOf_appendAll present] at member
    split at member
    · next same =>
      subst same
      rcases mem_append.mp member with old | new
      · exact later parent present child old
      · rw [Arena.appendAll_fst, mem_range'_1] at new
        exact Nat.lt_of_lt_of_le present new.1
    · exact later parent (Arena.lt_size_of_mem_childrenOf member) child member
  · rw [ParseState.expanded, Arena.parentOf_appendAll present, if_neg, top]
    rw [Arena.appendAll_fst, mem_range'_1]
    exact fun new => Nat.not_lt_of_le new.1 (Nat.zero_lt_of_lt present)
  · rw [map_append, map_fst_numbered, nodup_append]
    refine ⟨nodup_range', others, ?_⟩
    rintro number new _ old rfl
    obtain ⟨entry, member, rfl⟩ := mem_map.mp old
    have below := Arena.lt_size_of_valueOf? (bare entry (mem_cons_of_mem _ member)).1
    exact Nat.not_lt_of_le (mem_range'_1.mp new).1 below
  · intro entry member
    rcases mem_append.mp member with new | old
    · -- A new node carries the symbol at its place in the body.
      obtain ⟨index, found⟩ := mem_iff_getElem?.mp new
      obtain ⟨isNumber, isSymbol⟩ := getElem?_zip_eq_some.mp found
      obtain ⟨_, number⟩ := List.getElem?_eq_some_iff.mp isNumber
      rw [getElem_range', Nat.one_mul] at number
      have node : (state.expanded id production).arena.get? entry.1 =
          some { value := { symbol := entry.2 }, parent := some id } := by
        rw [ParseState.expanded, Arena.get?_appendAll present, if_neg (by omega), if_neg (by omega),
          getElem?_map, show entry.1 - state.arena.size = index by omega, isSymbol]
        rfl
      rw [Arena.valueOf?, Arena.childrenOf, node]
      exact ⟨rfl, rfl⟩
    · have other : entry.1 ≠ id := by
        rintro rfl
        exact apart (mem_map_of_mem old)
      have held := bare entry (mem_cons_of_mem _ old)
      have kept : (state.expanded id production).arena.get? entry.1 = state.arena.get? entry.1 := by
        rw [ParseState.expanded, Arena.get?_appendAll present, if_neg other,
          if_pos (Arena.lt_size_of_valueOf? held.1)]
      rw [Arena.valueOf?_congr kept, Arena.childrenOf_congr kept]
      exact held

/-- A node that is there and leaves the stack does not come back to it with a body. -/
theorem not_mem_numbered {number : Nat} (production : Production) (present : id < state.arena.size)
    (behind : id ∉ rest.map Prod.fst) :
    id < (state.expanded number production).arena.size ∧
      id ∉ (numbered production state ++ rest).map Prod.fst := by
  rw [ParseState.expanded, Arena.size_appendAll, map_append, map_fst_numbered, mem_append,
    mem_range'_1]
  refine ⟨Nat.lt_add_right _ present, ?_⟩
  rintro (new | old)
  · exact Nat.not_lt_of_le new.1 present
  · exact behind old

section

variable (grows : parser.Grows stack state trees last)
include grows

/-- Nodes that are not on the stack stay as they are. -/
theorem Grows.kept :
    Sprouts stack state.arena → ∀ id < state.arena.size, id ∉ stack.map Prod.fst →
      last.arena.get? id = state.arena.get? id := by
  induction grows with
  | done => exact fun _ _ _ _ => rfl
  | @matched number name rest state last token source trees _ _ _ ih =>
    intro sprouts id present outside
    obtain ⟨apart, behind⟩ := ne_and_not_mem_of_not_mem_cons outside
    rw [ih (sprouts.matched name token source) id (by simpa [ParseState.matched]) behind,
      ParseState.matched, Arena.setValue, Arena.get?_modify, if_neg apart]
  | @expanded number name rest state last production children trees _ _ _ ih =>
    intro sprouts id present outside
    obtain ⟨apart, behind⟩ := ne_and_not_mem_of_not_mem_cons outside
    obtain ⟨still, gone⟩ := not_mem_numbered production present behind
    rw [ih (sprouts.expanded production) id still gone, ParseState.expanded,
      Arena.get?_appendAll (sprouts.present mem_cons_self), if_neg apart, if_pos present]

theorem Grows.sprouts :
    Sprouts stack state.arena → Sprouts [] last.arena := by
  induction grows with
  | done => exact fun sprouts => sprouts
  | matched id name _ _ _ ih => exact fun sprouts => ih (sprouts.matched name _ _)
  | expanded id _ _ _ ih => exact fun sprouts => ih (sprouts.expanded _)

/-- The trees are held in the arena that is left. -/
theorem Grows.holds :
    Sprouts stack state.arena → ∀ tree ∈ trees, last.arena.Holds tree := by
  induction grows with
  | done => simp
  | @matched id name rest state last token source trees _ _ behind ih =>
    intro sprouts
    have onward := sprouts.matched name token source
    have present : id < state.arena.size := sprouts.present mem_cons_self
    -- The node is done with this step, and nothing changes it from here on.
    have kept := behind.kept onward id (by simpa [ParseState.matched])
      (nodup_cons.mp sprouts.distinct).1
    refine forall_mem_cons.mpr ⟨Arena.holds_node.mpr ⟨?_, ?_, by simp⟩, ih onward⟩
    · rw [Arena.valueOf?_congr kept, ParseState.matched, Arena.setValue, Arena.valueOf?,
        Arena.get?_modify, if_pos rfl]
      cases found : state.arena.get? id with
      | none => exact absurd (Arena.get?_eq_none_iff.mp found) (Nat.not_le_of_lt present)
      | some node => rfl
    · rw [Arena.childrenOf_congr kept, ParseState.matched, Arena.childrenOf_setValue]
      exact (sprouts.bare _ mem_cons_self).2
  | @expanded id name rest state last production children trees _ many behind ih =>
    intro sprouts
    have onward := sprouts.expanded production
    have present : id < state.arena.size := sprouts.present mem_cons_self
    obtain ⟨valued, childless⟩ := sprouts.bare _ mem_cons_self
    obtain ⟨still, gone⟩ := not_mem_numbered production present (nodup_cons.mp sprouts.distinct).1
    have kept := behind.kept onward id still gone
    obtain ⟨below, others⟩ := forall_mem_append.mp (ih onward)
    refine forall_mem_cons.mpr ⟨Arena.holds_node.mpr ⟨?_, ?_, below⟩, others⟩
    · rw [Arena.valueOf?_congr kept, ParseState.expanded, Arena.valueOf?,
        Arena.get?_appendAll present, if_pos rfl, Option.map_map]
      exact valued
    · rw [Arena.childrenOf_congr kept, ParseState.expanded, Arena.childrenOf_appendAll present,
        if_pos rfl, childless, Arena.appendAll_fst, nil_append, length_map,
        ← map_fst_numbered, ← behind.children many, map_map]
      rfl

end

end Parser

end ThreeAddress

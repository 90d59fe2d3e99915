import ThreeAddress.Proofs.Syntax.Brackets

/-!
The extents of nodes.

Spans are joined in any order, and tokens that ascend reach from the start of the first to the end of the last.
Main statement: so does every node of a parse tree, before and after normalization.
-/

namespace ThreeAddress

open List

namespace Span

variable {first second third : Span}

theorem extend_of_ne (some : first ≠ null) (other : second ≠ null) : first.extend second =
    ⟨if second.start < first.start then second.start else first.start,
      if second.stop > first.stop then second.stop else first.stop⟩ := by
  simp [extend, isNull, some, other]

/-- Nothing is around two spans only if one of them is null. -/
theorem extend_ne_null (some : first ≠ null) (other : second ≠ null) :
    first.extend second ≠ null := by
  rw [extend_of_ne some other]
  intro same
  obtain ⟨start, stop⟩ := mk.inj same
  obtain ⟨_, _⟩ := first
  obtain ⟨_, _⟩ := second
  simp only [ne_eq, null, mk.injEq] at some other
  grind

theorem extend_null (first : Span) : first.extend null = first := by
  simp only [extend, isNull, beq_iff_eq, null]
  grind

theorem extend_self (first : Span) : first.extend first = first := by
  simp [extend]

theorem extend_comm (first second : Span) : first.extend second = second.extend first := by
  simp only [extend, isNull, beq_iff_eq, null]
  grind

theorem extend_assoc (first second third : Span) :
    (first.extend second).extend third = first.extend (second.extend third) := by
  by_cases one : first = null
  · rw [one]; rfl
  by_cases two : second = null
  · rw [two, extend_null]; rfl
  by_cases three : third = null
  · rw [three, extend_null, extend_null]
  rw [extend_of_ne (extend_ne_null one two) three, extend_of_ne one (extend_ne_null two three),
    extend_of_ne one two, extend_of_ne two three]
  grind

end Span

/-- Tokens as they stand in a text: none is empty, and each ends before those behind it begin. -/
structure Token.Ascending (tokens : List Token) : Prop where
  filled : ∀ token ∈ tokens, token.span.start < token.span.stop
  apart : tokens.Pairwise fun token later => token.span.stop ≤ later.span.start

/-- From the start of the first token to the end of the last, or nothing if there is no token. -/
def Token.extent (tokens : List Token) : Span :=
  match tokens.head?, tokens.getLast? with
  | some first, some last => ⟨first.span.start, last.span.stop⟩
  | _, _ => Span.null

namespace Token

variable {tokens others : List Token}

theorem Ascending.sublist (ascending : Ascending tokens) (sub : others.Sublist tokens) :
    Ascending others :=
  ⟨fun token member => ascending.filled token (sub.subset member), ascending.apart.sublist sub⟩

theorem exists_extent (filled : tokens ≠ []) : ∃ first last rest front, tokens = first :: rest ∧
    tokens = front ++ [last] ∧ extent tokens = ⟨first.span.start, last.span.stop⟩ := by
  obtain ⟨first, rest, isFirst⟩ := exists_cons_of_ne_nil filled
  obtain ⟨front, last, isLast⟩ := (eq_nil_or_concat tokens).resolve_left filled
  rw [concat_eq_append] at isLast
  refine ⟨first, last, rest, front, isFirst, isLast, ?_⟩
  have newest : tokens.getLast? = some last := by rw [isLast, getLast?_concat]
  rw [extent, newest, isFirst, head?_cons]

/-- Tokens that ascend lie within their extent. -/
theorem Ascending.within (ascending : Ascending tokens) {token : Token} (member : token ∈ tokens) :
    (extent tokens).start ≤ token.span.start ∧ token.span.stop ≤ (extent tokens).stop := by
  obtain ⟨first, last, rest, front, isFirst, isLast, is⟩ := exists_extent (ne_nil_of_mem member)
  have long := ascending.filled
  rw [is]
  constructor
  · have apart := isFirst ▸ ascending.apart
    rcases mem_cons.mp (isFirst ▸ member) with rfl | behind
    · exact UInt64.le_refl _
    · have before := (pairwise_cons.mp apart).1 token behind
      exact UInt64.le_of_lt (UInt64.lt_of_lt_of_le (long first (by simp [isFirst])) before)
  · have apart := isLast ▸ ascending.apart
    rcases mem_append.mp (isLast ▸ member) with ahead | here
    · have before := (pairwise_append.mp apart).2.2 token ahead last (by simp)
      exact UInt64.le_of_lt (UInt64.lt_of_le_of_lt before (long last (by simp [isLast])))
    · rw [mem_singleton.mp here]
      exact UInt64.le_refl _

theorem Ascending.extent_eq_null (ascending : Ascending tokens) :
    extent tokens = Span.null ↔ tokens = [] := by
  refine ⟨fun null => ?_, fun none => by rw [none]; rfl⟩
  by_contra filled
  obtain ⟨first, last, rest, front, -, isLast, is⟩ := exists_extent filled
  have long := ascending.filled last (by simp [isLast])
  rw [(Span.mk.inj (is.symm.trans null)).2] at long
  exact absurd long (by simp)

theorem Ascending.extent_append (ascending : Ascending (tokens ++ others)) :
    extent (tokens ++ others) = (extent tokens).extend (extent others) := by
  by_cases none : tokens = []
  · rw [none]; rfl
  by_cases noOther : others = []
  · rw [noOther, append_nil]
    exact (Span.extend_null _).symm
  have one := ascending.sublist (sublist_append_left ..)
  have two := ascending.sublist (sublist_append_right ..)
  rw [Span.extend_of_ne (one.extent_eq_null.not.mpr none) (two.extent_eq_null.not.mpr noOther)]
  obtain ⟨first, last, rest, front, isFirst, isLast, is⟩ := exists_extent none
  obtain ⟨next, final, more, inner, isNext, isFinal, also⟩ := exists_extent noOther
  -- The first token of the whole is that of the one part, and the last is that of the other.
  have whole : extent (tokens ++ others) = ⟨first.span.start, final.span.stop⟩ := by
    rw [extent, isFirst, isFinal, ← append_assoc, getLast?_concat]
    rfl
  have before := (ascending.within (show next ∈ _ by simp [isNext])).1
  have behind := (ascending.within (show last ∈ _ by simp [isLast])).2
  rw [whole] at before behind ⊢
  rw [is, also]
  grind

end Token

namespace SyntaxTree

variable {tree : SyntaxTree}

theorem Labelled.sublist {child : SyntaxTree} (labelled : tree.Labelled)
    (member : child ∈ tree.children) : (tokens child).Sublist (tokens tree) := by
  rw [labelled.tokens_children (labelled.nonterminal (ne_nil_of_mem member))]
  exact sublist_flatten_of_mem (mem_map_of_mem member)

theorem forestSpan_eq {trees : List SyntaxTree}
    (each : ∀ tree ∈ trees, span tree = Token.extent (tokens tree)) : ∀ seen : List Token,
    Token.Ascending (seen ++ trees.flatMap tokens) →
      forestSpan (Token.extent seen) trees = Token.extent (seen ++ trees.flatMap tokens) := by
  induction trees with
  | nil => simp [forestSpan]
  | cons tree rest ih =>
    obtain ⟨here, others⟩ := forall_mem_cons.mp each
    intro seen ascending
    rw [flatMap_cons, ← append_assoc] at ascending ⊢
    have front := ascending.sublist (sublist_append_left ..)
    rw [forestSpan, here, ← front.extent_append, ih others _ ascending]

/-- A node that covers exactly its tokens, while its children cover parts of it one after the other. -/
structure Covers (node : SyntaxTree) : Prop where
  exact : span node = Token.extent (tokens node)
  empty : span node = Span.null ↔ tokens node = []
  inside : ∀ child ∈ node.children, span child ≠ Span.null →
    (span node).start ≤ (span child).start ∧ (span child).stop ≤ (span node).stop
  ascending : node.children.Pairwise fun child later => span child ≠ Span.null →
    span later ≠ Span.null → (span child).stop ≤ (span later).start

theorem span_eq_extent (labelled : tree.Labelled) (ascending : Token.Ascending (tokens tree))
    (each : ∀ child ∈ tree.children, span child = Token.extent (tokens child)) :
    span tree = Token.extent (tokens tree) := by
  obtain ⟨id, ⟨symbol, token⟩, children⟩ := tree
  cases symbol with
  | terminal name category =>
    obtain ⟨rfl, read, rfl, -⟩ := labelled
    rfl
  | nonterminal name =>
    obtain rfl : token = none := labelled
    rw [tokens_node id children rfl] at ascending ⊢
    exact forestSpan_eq each [] ascending

theorem covers_of_children (labelled : tree.Labelled) (ascending : Token.Ascending (tokens tree))
    (each : ∀ child ∈ tree.children, span child = Token.extent (tokens child)) : Covers tree := by
  have whole := span_eq_extent labelled ascending each
  -- The extent of a child is told by its first and its last token.
  have ends : ∀ child ∈ tree.children, span child ≠ Span.null → ∃ first ∈ tokens child,
      ∃ last ∈ tokens child, span child = ⟨first.span.start, last.span.stop⟩ := by
    intro child member some
    rw [each child member] at some ⊢
    obtain ⟨first, last, rest, front, isFirst, isLast, is⟩ := Token.exists_extent
      ((ascending.sublist (labelled.sublist member)).extent_eq_null.not.mp some)
    exact ⟨first, by simp [isFirst], last, by simp [isLast], is⟩
  refine ⟨whole, by rw [whole, ascending.extent_eq_null], fun child member some => ?_, ?_⟩
  · obtain ⟨first, isFirst, last, isLast, is⟩ := ends child member some
    have inside := (labelled.sublist member).subset
    rw [whole, is]
    exact ⟨(ascending.within (inside isFirst)).1, (ascending.within (inside isLast)).2⟩
  · by_cases leaf : tree.children = []
    · rw [leaf]
      exact .nil
    have apart := ascending.apart
    rw [labelled.tokens_children (labelled.nonterminal leaf), pairwise_flatMap] at apart
    refine apart.2.imp_of_mem fun member among before some other => ?_
    obtain ⟨_, -, last, isLast, is⟩ := ends _ member some
    obtain ⟨first, isFirst, _, -, also⟩ := ends _ among other
    rw [is, also]
    exact before last isLast first isFirst

/-- All nodes cover exactly the tokens below them. -/
theorem every_covers (labelled : tree.Every Labelled) :
    Token.Ascending (tokens tree) → tree.Every Covers := by
  induction tree using Tree.induct with
  | node id label children ih =>
    obtain ⟨here, below⟩ := Tree.every_node.mp labelled
    intro ascending
    have each : ∀ child ∈ children, child.Every Covers := fun child member =>
      ih child member (below child member) (ascending.sublist (here.sublist member))
    exact Tree.every_node.mpr ⟨covers_of_children here ascending fun child member =>
      (each child member).root.exact, each⟩

end SyntaxTree

/-- What is kept of some tokens when brackets are taken away. -/
theorem Normalizer.Trims.sublist {normalizer : Normalizer} {before after : Nat} {tokens kept : List Token}
    (trims : normalizer.Trims before tokens kept after) : kept.Sublist tokens := by
  obtain ⟨marks, rfl, rfl, -⟩ := trims.marks
  exact filter_sublist.map _

/--
Every node of a parse tree reaches from the start of its first token to the end of its last, before and after normalization.

A node is at no place exactly if no token is below it, and what its children cover lies within it in order.
Spans may be joined in any order, where nothing adds nothing.
-/
theorem spans_are_extents {grammar : Grammar} (loaded : grammar.Loaded) {registry : Registry}
    (words : Table.Wordsized grammar registry) {table : Table}
    (built : Table.build (Analysis.ofGrammar grammar) registry = .ok table) {halting : Bool}
    {tokens : List Token} (ascending : Token.Ascending tokens) {tree : SyntaxTree}
    (parsed : Parser.parse { table, halting } (.ofTokens tokens) = .ok tree)
    (normalizer : Normalizer) :
    (∀ whole ∈ [tree, normalizer.normalize tree], whole.Every SyntaxTree.Covers) ∧
      ∀ first second third : Span,
        (first.extend second).extend third = first.extend (second.extend third) ∧
        first.extend second = second.extend first ∧ first.extend first = first ∧
        Span.null.extend first = first ∧ first.extend Span.null = first := by
  obtain ⟨_, same, faithful, -⟩ :=
    Table.build_faithful loaded.wellFormed (Table.fits_of_build words built)
  cases built.symm.trans same
  obtain ⟨-, derivation, read⟩ := Parser.parse_ok faithful parsed
  obtain ⟨unwrapped, first⟩ := normalizer.unwrap_carries.tree derivation.labelled
  obtain ⟨shrunk, second⟩ := Normalizer.shrink_carries.tree unwrapped
  obtain ⟨opened, trims⟩ := normalizer.ungroup_carries.tree shrunk
  have ascends : Token.Ascending (SyntaxTree.tokens tree) :=
    ascending.sublist (read ▸ takeWhile_sublist _)
  refine ⟨?_, fun first second third => ⟨first.extend_assoc second third, first.extend_comm second,
    first.extend_self, rfl, first.extend_null⟩⟩
  refine forall_mem_cons.mpr ⟨SyntaxTree.every_covers derivation.labelled ascends,
    forall_mem_singleton.mpr (SyntaxTree.every_covers opened (ascends.sublist ?_))⟩
  rw [first, second]
  exact trims.sublist

/-- A conditional without its second branch: the missing branch has no place, and the outer one has that of all tokens. -/
theorem spans_of_conditional : conditionalGrammar.Loaded ∧ Table.Wordsized conditionalGrammar {} ∧
    ∃ table tree, Table.build (Analysis.ofGrammar conditionalGrammar) {} = .ok table ∧
      Token.Ascending (Token.ofCategories [1, 1, 2, 3, 2]) ∧
      Parser.parse { table } (.ofTokens (Token.ofCategories [1, 1, 2, 3, 2])) = .ok tree ∧
      tree.Every SyntaxTree.Covers ∧ (Normalizer.normalize ⟨[], 1, 3⟩ tree).Every SyntaxTree.Covers := by
  have loaded : conditionalGrammar.Loaded := .built ((GrammarBuilder.Assembled.new "Conditional").extended
    rfl rfl |>.extended rfl rfl |>.extended rfl rfl |>.extended rfl rfl)
    (rfl : conditionalRules.grammar = _)
  have words : Table.Wordsized conditionalGrammar {} := by
    unfold Table.Wordsized
    decide +kernel
  have ascending : Token.Ascending (Token.ofCategories [1, 1, 2, 3, 2]) :=
    ⟨by decide +kernel, by decide +kernel⟩
  have computed : ((Table.build (Analysis.ofGrammar conditionalGrammar) {}).toOption.bind fun table =>
      (Parser.parse { table } (.ofTokens (Token.ofCategories [1, 1, 2, 3, 2]))).toOption.bind
        fun tree => some (SyntaxTree.span tree)) = some ⟨0, 5⟩ := by
    decide +kernel
  obtain ⟨table, built, further⟩ := ok_of_toOption_bind computed
  obtain ⟨tree, parsed, -⟩ := ok_of_toOption_bind further
  have covered := (spans_are_extents loaded words built ascending parsed ⟨[], 1, 3⟩).1
  exact ⟨loaded, words, table, tree, built, ascending, parsed, covered _ (by simp),
    covered _ (by simp)⟩

end ThreeAddress

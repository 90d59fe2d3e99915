import ThreeAddress.Proofs.Syntax.NormalForm
import ThreeAddress.Proofs.Syntax.Soundness
import ThreeAddress.Proofs.Table.Ambiguity
import ThreeAddress.Proofs.Grammar.Loading

/-!
What becomes of the tokens of a tree.

The first two passes of normalization keep all tokens in their order.
The third takes away brackets in pairs, since whatever nodes it has removed before, an opening bracket that is the first of three nodes comes before the closing one that is the last.
-/

namespace ThreeAddress

open List

namespace SyntaxTree

/-- A node as parsers make them: a terminal is a leaf with a token of its category, and a non-terminal has no token. -/
def Labelled (tree : SyntaxTree) : Prop :=
  match tree.value.symbol with
  | .terminal _ category => tree.children = [] ∧
      ∃ token, tree.value.token = some token ∧ token.category = category
  | .nonterminal _ => tree.value.token = none

theorem Labelled.tokens_eq {tree : SyntaxTree} (labelled : tree.Labelled) {category : Category}
    (found : tree.value.symbol.hasCategory category = true) :
    ∃ token, tokens tree = [token] ∧ token.category = category := by
  obtain ⟨id, ⟨symbol, token⟩, children⟩ := tree
  cases symbol with
  | nonterminal name => cases found
  | terminal name other =>
    obtain ⟨rfl, read, rfl, rfl⟩ := labelled
    exact ⟨read, tokens_leaf id _, by simpa [Symbol.hasCategory, Symbol.category?] using found⟩

theorem Labelled.tokens_children {tree : SyntaxTree} (labelled : tree.Labelled)
    (nonterminal : tree.value.symbol.isTerminal = false) :
    tokens tree = tree.children.flatMap tokens := by
  obtain ⟨id, ⟨symbol, token⟩, children⟩ := tree
  cases symbol with
  | terminal name category => cases nonterminal
  | nonterminal name => exact tokens_node id children labelled

theorem Labelled.nonterminal {tree : SyntaxTree} (labelled : tree.Labelled)
    (above : tree.children ≠ []) : tree.value.symbol.isTerminal = false := by
  obtain ⟨id, ⟨symbol, token⟩, children⟩ := tree
  cases symbol with
  | terminal name category => exact absurd labelled.1 above
  | nonterminal name => rfl

/-- What a replacement does to the tokens of labelled nodes, as a relation between token lists. -/
structure Carries (replace : Tree.Replacement Label) (related : List Token → List Token → Prop) :
    Prop where
  chooses : Tree.Chooses replace
  refl : ∀ tokens, related tokens tokens
  append : ∀ {first second others left}, related first second → related others left →
    related (first ++ others) (second ++ left)
  /-- Whatever became of the tokens below a node, it is still so with what takes the node's place. -/
  node : ∀ {tree : SyntaxTree} {whole}, tree.Every Labelled → related whole (tokens tree) →
    related whole ((replace tree).flatMap tokens)

variable {replace : Tree.Replacement Label} {related : List Token → List Token → Prop}

section

variable (carries : Carries replace related)
include carries

theorem Carries.above {id : Nat} {label : Label}
    {children left : List SyntaxTree} (here : Labelled (.node id label children))
    (empty : children = [] → left = []) (labelled : ∀ child ∈ left, child.Every Labelled)
    (below : related (children.flatMap tokens) (left.flatMap tokens)) :
    Tree.Every Labelled (.node id label left) ∧
      related (tokens (.node id label children)) (tokens (.node id label left)) := by
  obtain ⟨symbol, token⟩ := label
  cases symbol with
  | terminal name category =>
    obtain ⟨rfl, found⟩ := here
    obtain rfl := empty rfl
    exact ⟨Tree.every_node.mpr ⟨⟨rfl, found⟩, labelled⟩, carries.refl _⟩
  | nonterminal name =>
    obtain rfl : token = none := here
    refine ⟨Tree.every_node.mpr ⟨rfl, labelled⟩, ?_⟩
    rwa [tokens_node id children rfl, tokens_node id left rfl]

/-- Nodes that have given way are labelled, and their tokens are those before as far as the relation says. -/
theorem Carries.forest {trees : List SyntaxTree}
    (labelled : ∀ tree ∈ trees, tree.Every Labelled) :
    (∀ chosen ∈ Tree.replaceForest replace trees, chosen.Every Labelled) ∧
      related (trees.flatMap tokens) ((Tree.replaceForest replace trees).flatMap tokens) := by
  induction trees using Tree.forest_induct with
  | nil => exact ⟨by simp [Tree.replaceForest], carries.refl []⟩
  | cons id label children rest below behind =>
    obtain ⟨⟨here, inside⟩, others⟩ := forall_mem_cons.mp labelled |>.imp_left Tree.every_node.mp
    obtain ⟨left, related⟩ := below inside
    obtain ⟨above, carried⟩ := carries.above here (by rintro rfl; rfl) left related
    obtain ⟨later, further⟩ := behind others
    rw [Tree.replaceForest, Tree.replaceBelow, forall_mem_append, flatMap_append, flatMap_cons]
    refine ⟨⟨fun chosen member => ?_, later⟩, carries.append (carries.node above carried) further⟩
    rcases carries.chooses.cases member with rfl | isChild
    · exact above
    · exact left chosen isChild

theorem Carries.tree {tree : SyntaxTree}
    (labelled : tree.Every Labelled) : (Tree.replaceNodes replace tree).Every Labelled ∧
      related (tokens tree) (tokens (Tree.replaceNodes replace tree)) := by
  rcases Tree.replaceNodes_cases replace tree with single | ⟨same, -⟩
  · have carried := carries.forest (forall_mem_singleton.mpr labelled)
    rw [Tree.replaceForest, Tree.replaceForest, append_nil, single] at carried
    simpa using carried
  · obtain ⟨id, label, children⟩ := tree
    obtain ⟨here, inside⟩ := Tree.every_node.mp labelled
    obtain ⟨left, below⟩ := carries.forest inside
    rw [same]
    exact carries.above here (by rintro rfl; rfl) left below

end

end SyntaxTree

namespace Normalizer

variable (normalizer : Normalizer)

/--
Tokens some of which are kept, while the others are brackets.

The numbers say how many brackets that were taken away are open before and after.
-/
inductive Trims : Nat → List Token → List Token → Nat → Prop where
  | nil (depth : Nat) : Trims depth [] [] depth
  | keep {before after : Nat} {tokens kept : List Token} (token : Token)
      (rest : Trims before tokens kept after) : Trims before (token :: tokens) (token :: kept) after
  | opening {before after : Nat} {tokens kept : List Token} {token : Token}
      (opens : token.category = normalizer.opening) (rest : Trims (before + 1) tokens kept after) :
      Trims before (token :: tokens) kept after
  | closing {before after : Nat} {tokens kept : List Token} {token : Token}
      (closes : token.category = normalizer.closing) (rest : Trims before tokens kept after) :
      Trims (before + 1) (token :: tokens) kept after

/-- Brackets in pairs, nested or side by side. -/
inductive Paired : List Token → Prop where
  | nil : Paired []
  | pair {first last : Token} {inner rest : List Token}
      (opens : first.category = normalizer.opening) (closes : last.category = normalizer.closing)
      (inside : Paired inner) (behind : Paired rest) : Paired (first :: (inner ++ last :: rest))

variable {normalizer} {before middle after : Nat} {tokens kept : List Token}

theorem Trims.refl (depth : Nat) (tokens : List Token) : normalizer.Trims depth tokens tokens depth := by
  induction tokens with
  | nil => exact .nil depth
  | cons token rest ih => exact .keep token ih

theorem Trims.append {others left : List Token} (first : normalizer.Trims before tokens kept middle)
    (second : normalizer.Trims middle others left after) :
    normalizer.Trims before (tokens ++ others) (kept ++ left) after := by
  induction first with
  | nil => exact second
  | keep token _ ih => exact .keep token (ih second)
  | opening opens _ ih => exact .opening opens (ih second)
  | closing closes _ ih => exact .closing closes (ih second)

/-- The last token kept may be taken away as a closing bracket. -/
theorem Trims.dropLast {last : Token} (closes : last.category = normalizer.closing)
    (trims : normalizer.Trims before tokens (kept ++ [last]) after) :
    normalizer.Trims (before + 1) tokens kept after := by
  generalize whole : kept ++ [last] = all at trims
  induction trims generalizing kept with
  | nil => simp at whole
  | keep token rest ih =>
    cases kept with
    | nil =>
      cases whole
      exact .closing closes rest
    | cons head others =>
      cases whole
      exact .keep token (ih rfl)
  | opening opens _ ih => exact .opening opens (ih whole)
  | closing closes _ ih => exact .closing closes (ih whole)

/-- The first token kept may be taken away as an opening bracket, together with the last as a closing one. -/
theorem Trims.dropPair {first last : Token} (opens : first.category = normalizer.opening)
    (closes : last.category = normalizer.closing)
    (trims : normalizer.Trims before tokens (first :: (kept ++ [last])) after) :
    normalizer.Trims before tokens kept after := by
  generalize whole : first :: (kept ++ [last]) = all at trims
  induction trims with
  | nil => cases whole
  | keep token rest ih =>
    cases whole
    exact .opening opens (rest.dropLast closes)
  | opening opens _ ih => exact .opening opens (ih whole)
  | closing closes _ ih => exact .closing closes (ih whole)

theorem Trims.marks (trims : normalizer.Trims before tokens kept after) :
    ∃ marks : List (Bool × Token), marks.map Prod.snd = tokens ∧
      (marks.filter Prod.fst).map Prod.snd = kept ∧
      normalizer.Trims before ((marks.filter fun mark => !mark.1).map Prod.snd) [] after := by
  induction trims with
  | nil depth => exact ⟨[], rfl, rfl, .nil depth⟩
  | keep token _ ih =>
    obtain ⟨marks, all, stay, go⟩ := ih
    exact ⟨(true, token) :: marks, by simp [all], by simp [stay], by simpa using go⟩
  | @opening _ _ _ _ token opens _ ih =>
    obtain ⟨marks, all, stay, go⟩ := ih
    exact ⟨(false, token) :: marks, by simp [all], by simp [stay], by simpa using go.opening opens⟩
  | @closing _ _ _ _ token closes _ ih =>
    obtain ⟨marks, all, stay, go⟩ := ih
    exact ⟨(false, token) :: marks, by simp [all], by simp [stay], by simpa using go.closing closes⟩

/-- Tokens in which brackets taken away before are closed, the innermost first, and all others are in pairs. -/
def Closes (normalizer : Normalizer) : Nat → List Token → Prop
  | 0, tokens => normalizer.Paired tokens
  | depth + 1, tokens => ∃ inner last rest, tokens = inner ++ last :: rest ∧
      last.category = normalizer.closing ∧ normalizer.Paired inner ∧ Closes normalizer depth rest

theorem Closes.opened {first : Token} (opens : first.category = normalizer.opening)
    (closes : normalizer.Closes (before + 1) tokens) : normalizer.Closes before (first :: tokens) := by
  obtain ⟨inner, last, rest, rfl, closing, inside, behind⟩ := closes
  cases before with
  | zero => exact .pair opens closing inside behind
  | succ depth =>
    obtain ⟨between, next, others, rfl, closingToo, paired, further⟩ := behind
    exact ⟨first :: (inner ++ last :: between), next, others, by simp, closingToo,
      .pair opens closing inside paired, further⟩

theorem Trims.closes (trims : normalizer.Trims before tokens kept after) (none : kept = [])
    (closed : after = 0) : normalizer.Closes before tokens := by
  induction trims with
  | nil =>
    subst closed
    exact .nil
  | keep => cases none
  | opening opens _ ih => exact (ih none closed).opened opens
  | closing closes _ ih => exact ⟨[], _, _, rfl, closes, .nil, ih none closed⟩

theorem Paired.category (paired : normalizer.Paired tokens) : ∀ token ∈ tokens,
    token.category = normalizer.opening ∨ token.category = normalizer.closing := by
  induction paired with
  | nil => simp
  | pair opens closes _ _ inside behind =>
    simp only [forall_mem_cons, forall_mem_append]
    exact ⟨.inl opens, inside, .inr closes, behind⟩

/-! The tokens that each pass keeps. -/

theorem unwrap_carries (normalizer : Normalizer) : SyntaxTree.Carries normalizer.unwrap Eq where
  chooses := normalizer.unwrap_chooses
  refl _ := rfl
  append one other := by rw [one, other]
  node {tree whole} labelled same := by
    rcases normalizer.unwrap_cases tree with ⟨keeps, -⟩ | ⟨spreads, nonterminal⟩
    · rw [keeps, flatMap_singleton, same]
    · rw [spreads, same, labelled.root.tokens_children nonterminal]

theorem shrink_carries : SyntaxTree.Carries shrink Eq where
  chooses := shrink_chooses
  refl _ := rfl
  append one other := by rw [one, other]
  node {tree whole} labelled same := by
    rcases shrink_cases tree with ⟨keeps, -⟩ | ⟨spreads, nonterminal, -⟩
    · rw [keeps, flatMap_singleton, same]
    · rw [spreads, same, labelled.root.tokens_children nonterminal]

theorem ungroup_carries (normalizer : Normalizer) : SyntaxTree.Carries normalizer.ungroup
    fun tokens kept => normalizer.Trims 0 tokens kept 0 where
  chooses := normalizer.ungroup_chooses
  refl := .refl 0
  append := .append
  node {tree whole} labelled trims := by
    rcases normalizer.ungroup_cases tree with ⟨keeps, -⟩ |
      ⟨first, inner, last, held, opens, closes, opened⟩
    · rwa [keeps, flatMap_singleton]
    · -- The brackets are leaves, so that what is between them has all other tokens.
      have within : ∀ child ∈ [first, inner, last], SyntaxTree.Labelled child := fun child member =>
        (labelled.child (held ▸ member)).root
      obtain ⟨left, leftmost, opening⟩ := (within first (by simp)).tokens_eq opens
      obtain ⟨right, rightmost, closing⟩ := (within last (by simp)).tokens_eq closes
      have nonterminal := labelled.root.nonterminal (by simp [held])
      rw [labelled.root.tokens_children nonterminal, held] at trims
      rw [opened, flatMap_singleton]
      refine .dropPair opening closing ?_
      simpa [leftmost, rightmost] using trims

end Normalizer

theorem Grammar.IsDerivation.labelled {grammar : Grammar} {tree : SyntaxTree}
    (derivation : grammar.IsDerivation tree) : tree.Every SyntaxTree.Labelled := by
  intro entry found
  have allowed := derivation entry found
  obtain ⟨depth, id, ⟨symbol, token⟩, children⟩ := entry
  cases symbol with
  | terminal name category => exact allowed
  | nonterminal name => exact allowed.1

/--
Normalization keeps the tokens of a parse tree in their order, apart from brackets in pairs.

The first two passes keep them all. Of the marked tokens of the tree those marked stay, and the others are brackets, each opening one with a closing one behind it and all between them in pairs.
-/
theorem normalize_keeps_tokens {grammar : Grammar} (loaded : grammar.Loaded) {registry : Registry}
    (words : Table.Wordsized grammar registry) {table : Table}
    (built : Table.build (Analysis.ofGrammar grammar) registry = .ok table) {halting : Bool}
    {source : TokenSource} {tree : SyntaxTree}
    (parsed : Parser.parse { table, halting } source = .ok tree) (normalizer : Normalizer) :
    SyntaxTree.tokens (normalizer.run .shrink (normalizer.run .unwrap tree)) =
        SyntaxTree.tokens tree ∧
      ∃ marks : List (Bool × Token), marks.map Prod.snd = SyntaxTree.tokens tree ∧
        (marks.filter Prod.fst).map Prod.snd = SyntaxTree.tokens (normalizer.normalize tree) ∧
        (∀ token ∈ (marks.filter fun mark => !mark.1).map Prod.snd,
          token.category = normalizer.opening ∨ token.category = normalizer.closing) ∧
        normalizer.Paired ((marks.filter fun mark => !mark.1).map Prod.snd) := by
  obtain ⟨_, same, faithful, -⟩ :=
    Table.build_faithful loaded.wellFormed (Table.fits_of_build words built)
  cases built.symm.trans same
  obtain ⟨_, _, _, _, derived, _⟩ := Parser.parse_reads faithful parsed
  obtain ⟨unwrapped, first⟩ := normalizer.unwrap_carries.tree derived.derivation.labelled
  obtain ⟨shrunk, second⟩ := Normalizer.shrink_carries.tree unwrapped
  obtain ⟨-, trims⟩ := normalizer.ungroup_carries.tree shrunk
  obtain ⟨marks, all, stay, go⟩ := trims.marks
  have paired : normalizer.Paired _ := go.closes rfl rfl
  exact ⟨(first.trans second).symm, marks, all.trans (first.trans second).symm, stay,
    paired.category, paired⟩

/-- A letter in any number of brackets. -/
def groupRules : GrammarBuilder := ((GrammarBuilder.mk "Groups" [] []).add
    "S" [.terminal "(" 1, .nonterminal "S", .terminal ")" 2]).add
    "S" [.terminal "a" 3]

/-- The grammar of letters in brackets. -/
def groupGrammar : Grammar := ⟨"Groups", "S", groupRules.productions⟩

/-- Two pairs of brackets are taken away, one within the other, and the letter is left in the place of the root. -/
theorem normalize_keeps_letter : groupGrammar.Loaded ∧ Table.Wordsized groupGrammar {} ∧
    ∃ table tree, Table.build (Analysis.ofGrammar groupGrammar) {} = .ok table ∧
      Parser.parse { table } (.ofTokens (Token.ofCategories [1, 1, 3, 2, 2])) = .ok tree ∧
      ∃ marks : List (Bool × Token), marks.map Prod.snd = SyntaxTree.tokens tree ∧
        (marks.filter Prod.fst).map (fun mark => mark.2.category) = [3] ∧
        Normalizer.Paired ⟨[], 1, 2⟩ ((marks.filter fun mark => !mark.1).map Prod.snd) := by
  have loaded : groupGrammar.Loaded := .built ((GrammarBuilder.Assembled.new "Groups").extended
    rfl rfl |>.extended rfl rfl) (rfl : groupRules.grammar = _)
  have words : Table.Wordsized groupGrammar {} := by
    unfold Table.Wordsized
    decide +kernel
  have computed : ((Table.build (Analysis.ofGrammar groupGrammar) {}).toOption.bind fun table =>
      (Parser.parse { table } (.ofTokens (Token.ofCategories [1, 1, 3, 2, 2]))).toOption.bind
        fun tree => some <| (SyntaxTree.tokens (Normalizer.normalize ⟨[], 1, 2⟩ tree)).map
          Token.category) = some [3] := by
    decide +kernel
  obtain ⟨table, built, further⟩ := ok_of_toOption_bind computed
  obtain ⟨tree, parsed, left⟩ := ok_of_toOption_bind further
  obtain ⟨-, marks, all, stay, -, paired⟩ :=
    normalize_keeps_tokens loaded words built parsed ⟨[], 1, 2⟩
  rw [← stay, map_map] at left
  exact ⟨loaded, words, table, tree, built, parsed, marks, all, Option.some.inj left, paired⟩

end ThreeAddress

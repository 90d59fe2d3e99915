import ThreeAddress.Proofs.Lexicon.Matching
import ThreeAddress.Proofs.Source.Printing

/-!
Texts for words.

A blank behind every word keeps the words of a text apart, so that every list of words is that of a text.
-/

namespace ThreeAddress

open List

namespace Lexicon

variable {κ : Type}

/-- A word that some rule accepts is a piece if no rule can go on behind it. -/
theorem piecesAfter_whole (lexicon : Lexicon κ) {kind : κ} {word rest : Text} (filled : word ≠ [])
    (accepted : accepted? (word.foldl advance lexicon.rules) = some kind)
    (stops : ∀ byte, rest.head? = some byte → advance (word.foldl advance lexicon.rules) byte = [])
    (start : Nat) :
    lexicon.piecesAfter 0 start (word ++ rest) =
      ⟨start, word, some kind⟩ :: lexicon.piecesAfter 0 (start + word.length) rest := by
  have here : first? lexicon.rules ((word ++ rest).take word.length) = some kind := by
    have whole := first?_foldl lexicon.rules word []
    rw [append_nil] at whole
    rw [take_left' rfl, ← whole]
    exact accepted
  have beyond : NoneFrom lexicon.rules (word ++ rest) (word.length + 1) := by
    intro more above below
    obtain ⟨further, rfl⟩ := Nat.exists_eq_add_of_lt above
    rw [Nat.add_assoc, take_length_add_append, ← first?_foldl]
    cases rest with
    | nil =>
      rw [append_nil] at below
      omega
    | cons byte others => rw [take_succ_cons, ← first?_advance, stops byte rfl]; rfl
  obtain ⟨count, other, _, below, matched, none, reaches⟩ | ⟨none, -⟩ :=
    extent_spec lexicon.rules 0 Option.none (word ++ rest)
  · -- Neither a shorter nor a longer match is the longest one.
    obtain rfl : count = word.length := by
      rcases Nat.lt_trichotomy count word.length with short | same | long
      · rw [none _ short (by simp)] at here
        cases here
      · exact same
      · rw [beyond _ long below] at matched
        cases matched
    cases here.symm.trans matched
    rw [Nat.zero_add] at reaches
    rw [piecesAfter_eq lexicon (by simp [filled]) reaches (by omega), take_left' rfl,
      drop_left' rfl]
  · rw [none _ (length_pos_iff.mpr filled) (by simp)] at here
    cases here

theorem foldl_advance_single (kind : κ) {text : Text} : ∀ {regex : Regex},
    regex.accepts text = true → text.foldl advance [(regex, kind)] =
      [(text.foldl (fun left byte => left.derivative byte) regex, kind)] := by
  induction text with
  | nil => exact fun _ => rfl
  | cons byte rest ih =>
    intro regex accepted
    have later : (regex.derivative byte).accepts rest = true := accepted
    have kept : advance [(regex, kind)] byte = [(regex.derivative byte, kind)] := by
      cases left : regex.derivative byte with
      | never =>
        rw [left, Regex.accepts_never] at later
        cases later
      | _ => simp [advance, left]
    rw [foldl_cons, kept, ih later]
    rfl

end Lexicon

namespace Language

/-- A word that a blank ends, and that ends a blank. -/
structure Word.IsSpelled (word : Word) : Prop where
  filled : word.1 ≠ []
  matched : ∃ kind, word.2 = some kind ∧ kind ≠ .blank ∧
    Lexicon.accepted? (word.1.foldl Lexicon.advance lexicalRules) = some kind
  ended : Lexicon.advance (word.1.foldl Lexicon.advance lexicalRules) 0x20 = []
  ends : ∀ byte, word.1.head? = some byte →
    Lexicon.advance (Lexicon.advance lexicalRules 0x20) byte = []

/-- Words, with a blank behind each of them. -/
def spell (written : List Word) : Text := written.flatMap fun word => word.1 ++ [0x20]

theorem words_spell {written : List Word} (each : ∀ word ∈ written, word.IsSpelled) :
    words (spell written) = written := by
  have from_ : ∀ start, wordsOf (lexicon.piecesAfter 0 start (spell written)) = written := by
    induction written with
    | nil => exact fun _ => rfl
    | cons word others ih =>
      intro start
      have spelled := each word (by simp)
      obtain ⟨kind, isKind, notBlank, accepted⟩ := spelled.matched
      have further := ih (forall_mem_cons.mp each).2
      -- The blank behind the word is a piece of its own, since the next word ends it.
      have blank : Lexicon.accepted? (([0x20] : Text).foldl Lexicon.advance lexicon.rules) =
          some WordKind.blank := by decide
      have ends : ∀ byte, (spell others).head? = some byte →
          Lexicon.advance (([0x20] : Text).foldl Lexicon.advance lexicon.rules) byte = [] := by
        intro byte first
        cases others with
        | nil => cases first
        | cons next behind =>
          have nextSpelled := each next (by simp)
          obtain ⟨head, tail, same⟩ := exists_cons_of_ne_nil nextSpelled.filled
          refine nextSpelled.ends byte ?_
          simpa [spell, same] using first
      have split : spell (word :: others) = word.1 ++ ([0x20] ++ spell others) := by
        simp [spell]
      rw [split, lexicon.piecesAfter_whole spelled.filled accepted
        (fun byte first => by cases first; exact spelled.ended) start,
        lexicon.piecesAfter_whole (cons_ne_nil _ _) blank ends]
      have kept : (some kind != some WordKind.blank) = true := by simpa using notBlank
      simp only [wordsOf, filter_cons, kept, if_true, bne_self_eq_false, Bool.false_eq_true,
        if_false, map_cons] at further ⊢
      rw [further, ← isKind]
  exact from_ 0

/-- The categories of words of one spelling. -/
def fixedCategories : List Category := (categories.drop 2).map Prod.fst

theorem isSpelled_fixed {category : Category} (listed : category ∈ fixedCategories) :
    (Word.fixed category).IsSpelled := by
  have checked : ∀ category ∈ fixedCategories, (Word.fixed category).1 ≠ [] ∧
      Lexicon.accepted? ((Word.fixed category).1.foldl Lexicon.advance lexicalRules) =
        some (.fixed category) ∧
      Lexicon.advance ((Word.fixed category).1.foldl Lexicon.advance lexicalRules) 0x20 = [] ∧
      (Word.fixed category).1.head?.all (fun byte =>
        (Lexicon.advance (Lexicon.advance lexicalRules 0x20) byte).isEmpty) = true := by
    decide +kernel
  obtain ⟨filled, accepted, ended, ends⟩ := checked category listed
  refine ⟨filled, ⟨_, rfl, by simp, accepted⟩, ended, fun byte first => ?_⟩
  simpa [first] using ends

/-- The rules for words that are spelled in many ways. -/
def openRules : List (Regex × WordKind) :=
  [(nameRegex, .name), (numberRegex, .number), (characterRegex, .character)]

/-- What can be left of these rules. -/
def openStates : List Regex :=
  [nameRegex, nameRegex.derivative 0x23, (nameRegex.derivative 0x23).derivative 0x61, numberRegex,
    numberRegex.derivative 0x30, characterRegex, characterRegex.derivative 0x27,
    (characterRegex.derivative 0x27).derivative 0x27, .never]

/-- The first byte of such a word leaves its rule only, and ends a blank. -/
theorem advance_open : ∀ rule ∈ openRules, ∀ byte : Fin 256,
    rule.1.derivative (.ofFin byte) ≠ .never → Lexicon.advance lexicalRules (.ofFin byte) =
        [(rule.1.derivative (.ofFin byte), rule.2)] ∧
      Lexicon.advance (Lexicon.advance lexicalRules 0x20) (.ofFin byte) = [] := by
  decide +kernel

/-- What can be left of these rules is known, and a complete match cannot go on with a blank. -/
theorem openStates_closed : ∀ regex ∈ openStates,
    (∀ byte : Fin 256, regex.derivative (.ofFin byte) ∈ openStates) ∧
      (regex.matchesEmpty = true → regex.derivative 0x20 = .never) := by
  decide +kernel

variable {text : Text}

theorem isSpelled_open {regex : Regex} {kind : WordKind} (listed : (regex, kind) ∈ openRules)
    (accepted : regex.accepts text = true) : Word.IsSpelled (text, some kind) := by
  obtain ⟨among, nonempty, notBlank⟩ : regex ∈ openStates ∧ regex.matchesEmpty = false ∧
      kind ≠ .blank := by
    have checked : ∀ rule ∈ openRules, rule.1 ∈ openStates ∧ rule.1.matchesEmpty = false ∧
      rule.2 ≠ .blank := by decide
    exact checked _ listed
  cases text with
  | nil =>
    rw [Regex.accepts, foldl_nil, nonempty] at accepted
    cases accepted
  | cons byte rest =>
    have later : (regex.derivative byte).accepts rest = true := accepted
    have possible : regex.derivative byte ≠ .never := by
      intro never
      rw [never, Regex.accepts_never] at later
      cases later
    obtain ⟨alone, ends⟩ := advance_open _ listed byte.toFin possible
    have left : (byte :: rest).foldl Lexicon.advance lexicalRules =
        [(rest.foldl (fun left byte => left.derivative byte) (regex.derivative byte), kind)] := by
      rw [foldl_cons]
      exact (congrArg (rest.foldl Lexicon.advance) alone).trans
        (Lexicon.foldl_advance_single kind later)
    -- What is left behind a word is one of a few states, and it accepts the empty text.
    have state : ∀ (text : Text) {regex : Regex}, regex ∈ openStates →
        text.foldl (fun left byte => left.derivative byte) regex ∈ openStates := by
      intro text
      induction text with
      | nil => exact fun member => member
      | cons byte rest ih =>
        exact fun member => ih ((openStates_closed _ member).1 byte.toFin)
    have final := openStates_closed _ (state (byte :: rest) among)
    have matched := final.2 accepted
    refine ⟨cons_ne_nil _ _, ⟨kind, rfl, notBlank, ?_⟩, ?_, fun first same => ?_⟩
    · have empty : (rest.foldl (fun left byte => left.derivative byte)
        (regex.derivative byte)).matchesEmpty = true := later
      rw [left]
      simp [Lexicon.accepted?, empty]
    · rw [left]
      simp only [foldl_cons] at matched
      simp [Lexicon.advance, matched]
    · cases same
      exact ends

/-- Anything without quotes may stand between quotes. -/
theorem accepts_character (unquoted : 0x27 ∉ text) :
    characterRegex.accepts ("'" ++ text ++ "'") = true := by
  have stays : ∀ byte : Fin 256, UInt8.ofFin byte ≠ 0x27 →
      (characterRegex.derivative 0x27).derivative (.ofFin byte) =
        characterRegex.derivative 0x27 := by
    decide +kernel
  -- Only the second quote leaves the state behind the first.
  have inside : text.foldl (fun left byte => left.derivative byte)
      (characterRegex.derivative 0x27) = characterRegex.derivative 0x27 := by
    induction text with
    | nil => rfl
    | cons byte rest ih =>
      have other : byte ≠ 0x27 := fun same => unquoted (by simp [same])
      have kept : (characterRegex.derivative 0x27).derivative byte =
          characterRegex.derivative 0x27 := stays byte.toFin other
      rw [foldl_cons, kept]
      exact ih fun member => unquoted (mem_cons_of_mem _ member)
  have quotes : ("'" : Text) = [0x27] := rfl
  have whole : ("'" ++ text ++ "'" : Text) = 0x27 :: (text ++ [0x27]) := by rw [quotes]; rfl
  rw [Regex.accepts, whole, foldl_cons, foldl_append, inside]
  decide

end Language

namespace Source

open ThreeAddress.Language

theorem Literal.isSpelled {spelling : Literal} (isWord : spelling.IsWord) :
    spelling.word.IsSpelled := by
  cases spelling with
  | number text => exact isSpelled_open (by decide : (numberRegex, _) ∈ openRules) isWord
  | character text =>
    exact isSpelled_open (by decide : (characterRegex, _) ∈ openRules) (accepts_character isWord)
  | truth value => cases value <;> exact isSpelled_fixed (by decide)

theorem Declarations.isSpelled (declared : Declarations) {entry : Text × ValueType}
    (known : entry ∈ declared.entries) : Word.IsSpelled (entry.1, some .name) :=
  isSpelled_open (by decide : (nameRegex, _) ∈ openRules) (declared.spelled entry known)

theorem isSpelled_grouped {inner : List Word} (each : ∀ word ∈ inner, word.IsSpelled) :
    ∀ word ∈ Word.grouped inner, word.IsSpelled := by
  intro word member
  simp only [Word.grouped, mem_cons, mem_append, not_mem_nil, or_false] at member
  rcases member with rfl | inside | rfl
  · exact isSpelled_fixed (by decide)
  · exact each word inside
  · exact isSpelled_fixed (by decide)

variable {declared : Declarations} {type : ValueType}

theorem Written.isSpelled {written : Written} (typed : written.HasType declared type) :
    ∀ least, ∀ word ∈ written.words least, word.IsSpelled := by
  induction typed with
  | name known =>
    intro least word member
    rw [Written.words, mem_singleton] at member
    exact member ▸ declared.isSpelled known
  | @literal _ _ isWord _ =>
    intro least word member
    rw [Written.words, mem_singleton] at member
    exact member ▸ Literal.isSpelled isWord
  | @binary operation left right _ _ _ _ _ ihLeft ihRight =>
    have inner : ∀ word ∈ left.words operation.leftLevel ++
        Word.fixed operation.category :: right.words operation.rightLevel, word.IsSpelled := by
      intro word member
      simp only [mem_append, mem_cons] at member
      rcases member with inLeft | rfl | inRight
      · exact ihLeft _ word inLeft
      · cases operation <;> exact isSpelled_fixed (by decide)
      · exact ihRight _ word inRight
    intro least
    rw [Written.words]
    split
    · exact inner
    · exact isSpelled_grouped inner
  | group _ ih => exact fun _ => isSpelled_grouped (ih 0)

theorem isSpelled_assignment {target : Text} {other : ValueType} {value : Written}
    (known : (target, other) ∈ declared.entries) (typed : value.HasType declared type) :
    ∀ word ∈ assignmentWords declared target value, word.IsSpelled := by
  intro word member
  simp only [assignmentWords, mem_cons, mem_append, mem_flatMap, declarationWords,
    not_mem_nil, or_false] at member
  rcases member with rfl | ⟨entry, listed, rfl | rfl | rfl | rfl⟩ | rfl | rfl | inside | rfl | rfl
  · exact isSpelled_fixed (by decide)
  · exact isSpelled_fixed (by decide)
  · -- Every type but the missing one has a word.
    have typed := declared.typed entry listed
    cases isType : entry.2 with
    | untyped => exact absurd isType typed
    | int | float | char | boolean => exact isSpelled_fixed (by decide)
  · exact declared.isSpelled listed
  · exact isSpelled_fixed (by decide)
  · exact declared.isSpelled known
  · exact isSpelled_fixed (by decide)
  · exact Written.isSpelled typed 0 word inside
  · exact isSpelled_fixed (by decide)
  · exact isSpelled_fixed (by decide)

end Source

end ThreeAddress

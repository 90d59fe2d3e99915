import Mathlib.Computability.Language
import ThreeAddress.Language.Lexer

/-!
What the pieces of a text match.

A regular expression stands for a language, and its derivatives decide byte by byte which texts belong to it.
Every piece is the longest match where it starts, and has the kind of the first rule that it matches.
-/

namespace ThreeAddress

namespace Regex

/-- The texts that a regular expression stands for. -/
def language : Regex → Language UInt8
  | never => 0
  | empty => 1
  | oneOf set => {text | ∃ byte, set.contains byte = true ∧ text = [byte]}
  | seq first second => first.language * second.language
  | alt left right => left.language + right.language
  | star body => KStar.kstar body.language

variable {byte : UInt8} {text : Text}

theorem mem_oneOf {set : ByteClass} :
    text ∈ (oneOf set).language ↔ ∃ byte, set.contains byte = true ∧ text = [byte] :=
  Iff.rfl

theorem matchesEmpty_iff (regex : Regex) : regex.matchesEmpty = true ↔ [] ∈ regex.language := by
  induction regex with
  | never => simp [matchesEmpty, language]
  | empty => simp [matchesEmpty, language]
  | oneOf set => simp [matchesEmpty, mem_oneOf]
  | seq first second ihFirst ihSecond =>
    simp [matchesEmpty, language, Language.mem_mul, ihFirst, ihSecond]
  | alt left right ihLeft ihRight =>
    simp [matchesEmpty, language, Language.mem_add, ihLeft, ihRight]
  | star body => simp [matchesEmpty, language, Language.nil_mem_kstar]

theorem language_andThen (first second : Regex) :
    (andThen first second).language = first.language * second.language := by
  unfold andThen
  split <;> simp [language]

theorem language_orElse (left right : Regex) :
    (orElse left right).language = left.language + right.language := by
  unfold orElse
  split <;> simp [language]

/-- A text of two parts begins within the first one, unless that is empty. -/
theorem cons_mem_mul {first second : Language UInt8} :
    byte :: text ∈ first * second ↔ ([] ∈ first ∧ byte :: text ∈ second) ∨
      ∃ front back, byte :: front ∈ first ∧ back ∈ second ∧ front ++ back = text := by
  rw [Language.mem_mul]
  constructor
  · rintro ⟨front, inFirst, back, inSecond, same⟩
    rcases List.append_eq_cons_iff.mp same with ⟨rfl, rfl⟩ | ⟨rest, rfl, rfl⟩
    · exact .inl ⟨inFirst, inSecond⟩
    · exact .inr ⟨rest, back, inFirst, inSecond, rfl⟩
  · rintro (⟨empty, whole⟩ | ⟨front, back, inFirst, inSecond, rfl⟩)
    · exact ⟨[], empty, _, whole, rfl⟩
    · exact ⟨_, inFirst, back, inSecond, rfl⟩

theorem cons_mem_kstar {body : Language UInt8} :
    byte :: text ∈ KStar.kstar body ↔
      ∃ front back, byte :: front ∈ body ∧ back ∈ KStar.kstar body ∧ front ++ back = text := by
  constructor
  · intro repeated
    obtain ⟨rounds, same, each⟩ := Language.mem_kstar_iff_exists_nonempty.mp repeated
    cases rounds with
    | nil => cases same
    | cons round others =>
      obtain ⟨inBody, filled⟩ := each round List.mem_cons_self
      cases round with
      | nil => exact absurd rfl filled
      | cons first front =>
        cases same
        refine ⟨front, others.flatten, inBody, Language.mem_kstar.mpr ⟨others, rfl, ?_⟩, rfl⟩
        exact fun other member => (each other (List.mem_cons_of_mem _ member)).1
  · rintro ⟨front, back, inBody, repeated, rfl⟩
    obtain ⟨rounds, rfl, each⟩ := Language.mem_kstar.mp repeated
    exact Language.mem_kstar.mpr
      ⟨(byte :: front) :: rounds, rfl, List.forall_mem_cons.mpr ⟨inBody, each⟩⟩

variable {regex : Regex}

theorem mem_derivative :
    text ∈ (regex.derivative byte).language ↔ byte :: text ∈ regex.language := by
  induction regex generalizing text with
  | never => simp [derivative, language]
  | empty => simp [derivative, language]
  | oneOf set =>
    rw [derivative, mem_oneOf]
    split
    · simp_all [language]
    · simp_all [language]
  | seq first second ihFirst ihSecond =>
    have through : text ∈ (andThen (first.derivative byte) second).language ↔
        ∃ front back, byte :: front ∈ first.language ∧ back ∈ second.language ∧
          front ++ back = text := by
      simp [language_andThen, Language.mem_mul, ihFirst]
    rw [derivative, language, cons_mem_mul, ← matchesEmpty_iff]
    split
    · next empty => rw [language_orElse, Language.mem_add, through, ihSecond, or_comm, and_iff_right empty]
    · next filled => rw [through, or_iff_right fun both => filled both.1]
  | alt left right ihLeft ihRight =>
    rw [derivative, language_orElse, language, Language.mem_add, Language.mem_add, ihLeft, ihRight]
  | star body ih =>
    rw [derivative, language_andThen, language, cons_mem_kstar]
    simp [Language.mem_mul, ih]

theorem accepts_iff : regex.accepts text = true ↔ text ∈ regex.language := by
  induction text generalizing regex with
  | nil => exact matchesEmpty_iff regex
  | cons byte rest ih => exact ih.trans mem_derivative

theorem accepts_never (text : Text) : never.accepts text = false :=
  Bool.eq_false_iff.mpr fun accepted => absurd (accepts_iff.mp accepted) (Language.notMem_zero text)

/-- The regular expression of one text accepts that text only. -/
theorem eq_of_accepts_ofText {word : Text} (accepted : (ofText word).accepts text = true) :
    text = word := by
  have inside := accepts_iff.mp accepted
  clear accepted
  induction word generalizing text with
  | nil => exact inside
  | cons first others ih =>
    obtain ⟨_, ⟨byte, contained, rfl⟩, back, behind, rfl⟩ := Language.mem_mul.mp inside
    have bounds : first ≤ byte ∧ byte ≤ first := by
      simpa [ByteClass.contains, ByteClass.single] using contained
    rw [UInt8.le_antisymm bounds.2 bounds.1, ih behind]
    rfl

end Regex

namespace Lexicon

variable {κ : Type} {rules : List (Regex × κ)} {text : Text} {kind : κ}

def Accepts (rules : List (Regex × κ)) (text : Text) (kind : κ) : Prop :=
  ∃ rule ∈ rules, rule.2 = kind ∧ rule.1.accepts text = true

/-- The kind of the first rule that accepts a text. -/
def first? (rules : List (Regex × κ)) (text : Text) : Option κ :=
  (rules.find? fun rule => rule.1.accepts text).map Prod.snd

/-- The first of the rules that stand for a text has the given kind. -/
def FirstMatch (rules : List (Regex × κ)) (text : Text) (kind : κ) : Prop :=
  ∃ before rule after, rules = before ++ rule :: after ∧ rule.2 = kind ∧ text ∈ rule.1.language ∧
    ∀ earlier ∈ before, text ∉ earlier.1.language

theorem first?_eq_some : first? rules text = some kind ↔ FirstMatch rules text kind := by
  simp only [first?, FirstMatch, Option.map_eq_some_iff, List.find?_eq_some_iff_append,
    Regex.accepts_iff, Bool.not_eq_true', ← Bool.not_eq_true]
  grind

theorem first?_eq_none : first? rules text = none ↔ ∀ rule ∈ rules, text ∉ rule.1.language := by
  simp [first?, Regex.accepts_iff]

/-- Rules that cannot go on behind a byte accept nothing that begins with it. -/
theorem first?_advance (rules : List (Regex × κ)) (byte : UInt8) (text : Text) :
    first? (advance rules byte) text = first? rules (byte :: text) := by
  induction rules with
  | nil => rfl
  | cons rule others ih =>
    have moved : rule.1.accepts (byte :: text) = (rule.1.derivative byte).accepts text := rfl
    simp only [first?, advance, List.filterMap_cons, List.find?_cons, moved] at ih ⊢
    cases derived : rule.1.derivative byte with
    | never => simpa [Regex.accepts_never] using ih
    | _ =>
      simp only [List.find?_cons]
      split
      · rfl
      · exact ih

theorem first?_foldl (rules : List (Regex × κ)) (front text : Text) :
    first? (front.foldl advance rules) text = first? rules (front ++ text) := by
  induction front generalizing rules with
  | nil => rfl
  | cons byte rest ih => rw [List.foldl_cons, ih, first?_advance, List.cons_append]

/-- No rule accepts any of the bytes in front of a text, from a number of them on. -/
def NoneFrom (rules : List (Regex × κ)) (text : Text) (count : Nat) : Prop :=
  ∀ more, count ≤ more → more ≤ text.length → first? rules (text.take more) = none

variable {count : Nat}

theorem noneFrom_cons {byte : UInt8} :
    NoneFrom rules (byte :: text) (count + 1) ↔ NoneFrom (advance rules byte) text count := by
  constructor
  · intro none more above below
    rw [first?_advance]
    exact none (more + 1) (by omega) (by simpa using below)
  · intro none more above below
    obtain ⟨less, rfl⟩ := Nat.exists_eq_add_of_le' (show 1 ≤ more by omega)
    rw [List.take_succ_cons, ← first?_advance]
    exact none less (by omega) (by simpa using below)

/-- The extent of a piece is the longest match that is ahead, or else the one known before. -/
theorem extent_spec (rules : List (Regex × κ)) (read : Nat) (longest : Option (Nat × κ)) (text : Text) :
    (∃ count kind, 0 < count ∧ count ≤ text.length ∧ first? rules (text.take count) = some kind ∧
      NoneFrom rules text (count + 1) ∧ extent rules read longest text = (read + count, some kind)) ∨
    NoneFrom rules text 1 ∧ (∀ length kind, longest = some (length, kind) →
        extent rules read longest text = (length, some kind)) ∧
      (longest = none → ∃ count, extent rules read longest text = (count, none) ∧
        read + min 1 text.length ≤ count ∧ count ≤ read + text.length) := by
  have stuck : ∀ {rules : List (Regex × κ)} {byte : UInt8} {rest : Text}, advance rules byte = [] →
      NoneFrom rules (byte :: rest) 1 := fun none => noneFrom_cons.mpr fun _ _ _ => by rw [none]; rfl
  fun_induction extent rules read longest text with
  | case1 | case2 => exact .inr ⟨fun more _ _ => by simp_all, by simp, by simp⟩
  | case3 rules read byte rest length kind none => exact .inr ⟨stuck none, by simp, by simp⟩
  | case4 rules read byte rest none => exact .inr ⟨stuck none, by simp, by simp⟩
  | case5 rules read byte rest longest kind _ _ accepted ih =>
    refine .inl ?_
    obtain ⟨count, later, _, below, matched, none, same⟩ | ⟨none, known, -⟩ := ih
    · refine ⟨count + 1, later, by omega, by simpa using below, ?_, noneFrom_cons.mpr none, ?_⟩
      · rw [List.take_succ_cons, ← first?_advance, matched]
      · rw [same, Nat.add_right_comm, Nat.add_assoc]
    · -- The match with this byte stays the longest one.
      refine ⟨1, kind, by omega, by simp, ?_, noneFrom_cons.mpr none, known _ _ rfl⟩
      rw [List.take_succ_cons, ← first?_advance]
      exact accepted
  | case6 rules read byte rest longest _ _ accepted ih =>
    obtain ⟨count, kind, _, below, matched, none, same⟩ | ⟨none, known, unknown⟩ := ih
    · refine .inl ⟨count + 1, kind, by omega, by simpa using below, ?_, noneFrom_cons.mpr none, ?_⟩
      · rw [List.take_succ_cons, ← first?_advance, matched]
      · rw [same, Nat.add_right_comm, Nat.add_assoc]
    · refine .inr ⟨noneFrom_cons.mpr fun more _ below => ?_, known, fun isNone => ?_⟩
      · cases more with
        | zero => exact accepted
        | succ more => exact none _ (by omega) below
      · obtain ⟨count, same, above, below⟩ := unknown isNone
        exact ⟨count, same, by simp; omega, by simp; omega⟩

/-- A text that is cut into pieces one after the other: each is the longest match in front of what is left, or no match is there. -/
inductive Cut (rules : List (Regex × κ)) : Nat → Text → List (Piece κ) → Prop where
  | nil {start : Nat} : Cut rules start [] []
  | matched {start : Nat} {text rest : Text} {kind : κ} {pieces : List (Piece κ)} (filled : text ≠ [])
    (first : FirstMatch rules text kind)
    (longest : ∀ more, more ≠ [] → more <+: rest → ∀ rule ∈ rules, text ++ more ∉ rule.1.language)
    (others : Cut rules (start + text.length) rest pieces) :
    Cut rules start (text ++ rest) (⟨start, text, some kind⟩ :: pieces)
  | undefined {start : Nat} {text rest : Text} {pieces : List (Piece κ)} (filled : text ≠ [])
    (unmatched : ∀ front, front ≠ [] → front <+: text ++ rest → ∀ rule ∈ rules, front ∉ rule.1.language)
    (others : Cut rules (start + text.length) rest pieces) :
    Cut rules start (text ++ rest) (⟨start, text, none⟩ :: pieces)

/-- Bytes that belong to the piece before are passed over. -/
theorem piecesAfter_drop (lexicon : Lexicon κ) (text : Text) : ∀ taken start : Nat,
    lexicon.piecesAfter taken start text = lexicon.piecesAfter 0 (start + taken) (text.drop taken) := by
  induction text with
  | nil => simp [piecesAfter]
  | cons byte rest ih =>
    intro taken start
    cases taken with
    | zero => rfl
    | succ taken =>
      rw [piecesAfter, ih, List.drop_succ_cons]
      congr 1
      omega

variable {start : Nat}

/-- The first piece has at least one byte, and the next one starts behind it. -/
theorem piecesAfter_eq (lexicon : Lexicon κ) {length : Nat} {kind : Option κ} (filled : text ≠ [])
    (reaches : extent lexicon.rules 0 none text = (length, kind)) (positive : 0 < length) :
    lexicon.piecesAfter 0 start text = ⟨start, text.take length, kind⟩ ::
      lexicon.piecesAfter 0 (start + length) (text.drop length) := by
  cases text with
  | nil => exact absurd rfl filled
  | cons byte rest =>
    obtain ⟨less, rfl⟩ := Nat.exists_eq_add_of_le' positive
    rw [piecesAfter, reaches]
    simp only [Nat.add_sub_cancel, List.drop_succ_cons]
    rw [piecesAfter_drop, Nat.add_right_comm]
    rfl

theorem not_mem_of_noneFrom (none : NoneFrom rules text count) {front : Text}
    (isPrefix : front <+: text) (above : count ≤ front.length) :
    ∀ rule ∈ rules, front ∉ rule.1.language := by
  have missing := none front.length above isPrefix.length_le
  rwa [← List.prefix_iff_eq_take.mp isPrefix, first?_eq_none] at missing

theorem cut_piecesAfter (lexicon : Lexicon κ) (start : Nat) (text : Text) :
    Cut lexicon.rules start text (lexicon.piecesAfter 0 start text) := by
  by_cases filled : text = []
  · rw [filled, piecesAfter]
    exact .nil
  obtain ⟨count, kind, positive, below, matched, none, reaches⟩ | ⟨none, -, reaches⟩ :=
    extent_spec lexicon.rules 0 Option.none text
  · rw [Nat.zero_add] at reaches
    have length : (text.take count).length = count := List.length_take_of_le below
    have others := cut_piecesAfter lexicon (start + count) (text.drop count)
    rw [piecesAfter_eq lexicon filled reaches positive]
    have cut := @Cut.matched _ lexicon.rules start (text.take count) (text.drop count) kind _
      (by rw [← List.length_pos_iff]; omega) (first?_eq_some.mp matched) (fun more some_ isPrefix => ?_)
      (by rwa [length])
    · rwa [List.take_append_drop] at cut
    · refine not_mem_of_noneFrom none ?_ ?_
      · conv_rhs => rw [← List.take_append_drop count text]
        exact (List.prefix_append_right_inj _).mpr isPrefix
      · rw [List.length_append, length]
        have := List.length_pos_iff.mpr some_
        omega
  · obtain ⟨count, reaches, above, below⟩ := reaches rfl
    have positive : 0 < count := by
      have := List.length_pos_iff.mpr filled
      omega
    have length : (text.take count).length = count := List.length_take_of_le (by omega)
    have others := cut_piecesAfter lexicon (start + count) (text.drop count)
    rw [piecesAfter_eq lexicon filled reaches positive]
    have cut := @Cut.undefined _ lexicon.rules start (text.take count) (text.drop count) _
      (by rw [← List.length_pos_iff]; omega) (fun front some_ isPrefix => ?_)
      (by rwa [length])
    · rwa [List.take_append_drop] at cut
    · rw [List.take_append_drop] at isPrefix
      exact not_mem_of_noneFrom none isPrefix (List.length_pos_iff.mpr some_)
termination_by text.length
decreasing_by
  all_goals
    have := List.length_pos_iff.mpr filled
    grind

theorem Cut.accepts {pieces : List (Piece κ)} (cut : Cut rules start text pieces) :
    ∀ piece ∈ pieces, ∀ kind, piece.kind = some kind → Accepts rules piece.text kind := by
  induction cut with
  | nil => simp
  | matched _ first _ _ ih =>
    refine List.forall_mem_cons.mpr ⟨fun kind isKind => ?_, ih⟩
    obtain ⟨before, rule, after, rfl, rfl, inside, -⟩ := first
    cases isKind
    exact ⟨rule, by simp, rfl, Regex.accepts_iff.mpr inside⟩
  | undefined _ _ _ ih => exact List.forall_mem_cons.mpr ⟨by simp, ih⟩

theorem accepts_of_mem_pieces {lexicon : Lexicon κ} {piece : Piece κ}
    (member : piece ∈ lexicon.pieces text) (isKind : piece.kind = some kind) :
    Accepts lexicon.rules piece.text kind :=
  (lexicon.cut_piecesAfter 0 text).accepts piece member kind isKind

end Lexicon

namespace Language

/-- The category of a word of one spelling. -/
def WordKind.fixed? : WordKind → Option Category
  | .fixed category => some category
  | _ => none

variable {category : Category}

theorem regex_of_fixed {rule : Regex × WordKind} (listed : rule ∈ lexicalRules)
    (kind : rule.2 = .fixed category) : rule.1 = Regex.ofText (registry.nameOf category) := by
  have checked : ∀ rule ∈ lexicalRules, rule.2.fixed?.all (fun category =>
      decide (rule.1 = Regex.ofText (registry.nameOf category))) = true := by
    decide +kernel
  simpa [kind, WordKind.fixed?] using checked rule listed

theorem text_of_fixed {text : Text} {piece : Piece WordKind} (member : piece ∈ lexicon.pieces text)
    (kind : piece.kind = some (.fixed category)) : piece.text = registry.nameOf category := by
  obtain ⟨rule, listed, same, accepted⟩ := Lexicon.accepts_of_mem_pieces member kind
  rw [regex_of_fixed listed same] at accepted
  exact Regex.eq_of_accepts_ofText accepted

theorem ofName?_nameOf (isType : isTypeWord category = true) :
    (ValueType.ofName? (registry.nameOf category)).isSome = true := by
  have bounds : 17 ≤ category ∧ category ≤ 20 := by simpa [isTypeWord] using isType
  have known : category = 17 ∨ category = 18 ∨ category = 19 ∨ category = 20 := by
    unfold Category at *
    omega
  rcases known with rfl | rfl | rfl | rfl <;> decide +kernel

end Language

end ThreeAddress

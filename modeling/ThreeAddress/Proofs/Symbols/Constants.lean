import ThreeAddress.Proofs.Symbols.Table
import Mathlib.Data.Nat.Digits.Defs
import Mathlib.Data.List.Nodup

/-!
Constants and their literals.

A literal is converted by a rule of its own, and every type and text has one handle.
Main statement: whatever literals are entered one after the other, handles tell types and texts apart, and they stay good.
-/

namespace ThreeAddress

open List

namespace Numeral

/-- Digits that spell a number: the last one counts once, and every other ten times as much as the one behind it. -/
structure Spells (text : Text) (value : Nat) : Prop where
  filled : text ≠ []
  digits : ∀ byte ∈ text, isDigit byte = true
  value_eq : value = Nat.ofDigits 10 (text.reverse.map digitValue)

variable {text : Text} {value : Nat}

/-- Reading digits behind a number that fits gives the number that all of them spell, if it fits. -/
theorem digits_eq_ok {before : Nat} (fits : before < wordLimit) :
    digits before text = .ok value ↔ (∀ byte ∈ text, isDigit byte = true) ∧
      value = 10 ^ text.length * before + Nat.ofDigits 10 (text.reverse.map digitValue) ∧
      value < wordLimit := by
  induction text generalizing before with
  | nil =>
    simp only [digits, Except.ok.injEq, length_nil, reverse_nil, map_nil, Nat.ofDigits_nil]
    grind
  | cons byte rest ih =>
    have shifted : ∀ next, next = 10 * before + digitValue byte → 10 ^ (rest.length + 1) * before +
          Nat.ofDigits 10 ((byte :: rest).reverse.map digitValue) =
        10 ^ rest.length * next + Nat.ofDigits 10 (rest.reverse.map digitValue) := by
      rintro next rfl
      simp [Nat.ofDigits_append]
      ring
    rw [digits]
    split
    · next notDigit =>
      simp only [reduceCtorEq, false_iff]
      exact fun spelled => by simp [spelled.1 byte mem_cons_self] at notDigit
    · next isDigit =>
      rw [length_cons, shifted _ rfl]
      dsimp only
      split
      · next small =>
        rw [ih small]
        grind
      · next large =>
        -- A number that is too large stays so, whatever digits follow.
        simp only [reduceCtorEq, false_iff]
        rintro ⟨-, rfl, below⟩
        have grows := Nat.le_mul_of_pos_left (10 * before + digitValue byte)
          (Nat.pow_pos (n := rest.length) (by decide : 0 < 10))
        omega

theorem unsigned_eq_ok : unsigned text = .ok value ↔ Spells text value ∧ value < wordLimit := by
  unfold unsigned
  split
  · next empty =>
    simp only [reduceCtorEq, false_iff]
    exact fun spelled => spelled.1.filled (isEmpty_iff.mp empty)
  · next filled =>
    rw [digits_eq_ok (by decide)]
    constructor
    · rintro ⟨all, same, below⟩
      exact ⟨⟨by simpa using filled, all, by simpa using same⟩, below⟩
    · rintro ⟨spelled, below⟩
      exact ⟨spelled.digits, by simpa using spelled.value_eq, below⟩

theorem integer_of_sign {magnitude : Text} {negative : Bool} {value : Int}
    (signed : sign text = (negative, magnitude)) :
    integer text = .ok value ↔ (-2 ^ 63 ≤ value ∧ value < 2 ^ 63) ∧
      ∃ number : Nat, Spells magnitude number ∧ value = if negative then -(number : Int) else number := by
  simp only [integer, signed, bind, Except.bind]
  cases read : unsigned magnitude with
  | error problem =>
    simp only [reduceCtorEq, false_iff]
    rintro ⟨range, number, spelled, rfl⟩
    have small : number < wordLimit := by
      unfold wordLimit
      split at range <;> omega
    simp [unsigned_eq_ok.mpr ⟨spelled, small⟩] at read
  | ok number =>
    obtain ⟨spelled, -⟩ := unsigned_eq_ok.mp read
    -- Digits spell one number only.
    have only : (∃ other : Nat, Spells magnitude other ∧
        value = if negative then -(other : Int) else other) ↔
        value = if negative then -(number : Int) else number := by
      refine ⟨?_, fun same => ⟨number, spelled, same⟩⟩
      rintro ⟨other, again, same⟩
      rwa [again.value_eq, ← spelled.value_eq] at same
    rw [only]
    clear only
    unfold signLimit
    cases negative <;> simp only [if_true, if_false, Bool.false_eq_true, pure, Except.pure] <;> split <;>
      simp only [Except.ok.injEq, reduceCtorEq, false_iff] <;> omega

/-- A numeral in decimal digits, with a sign or without, whose value is a signed word. -/
def SpellsInteger (text : Text) (value : Int) : Prop :=
  (-2 ^ 63 ≤ value ∧ value < 2 ^ 63) ∧ ∃ (magnitude : Text) (number : Nat),
    Spells magnitude number ∧
    ((text = magnitude ∨ text = 0x2B :: magnitude) ∧ value = number ∨
      text = 0x2D :: magnitude ∧ value = -number)

theorem integer_eq_ok {value : Int} : integer text = .ok value ↔ SpellsInteger text value := by
  have plain : ∀ number, Spells text number → sign text = (false, text) := by
    intro number spelled
    unfold sign
    split
    · exact absurd (spelled.digits 0x2B (by simp)) (by decide)
    · exact absurd (spelled.digits 0x2D (by simp)) (by decide)
    · rfl
  constructor
  · intro read
    obtain ⟨range, number, spelled, same⟩ := (integer_of_sign rfl).mp read
    refine ⟨range, (sign text).2, number, spelled, ?_⟩
    revert spelled same
    unfold sign
    split <;> simp
  · rintro ⟨range, magnitude, number, spelled, ⟨rfl | rfl, rfl⟩ | ⟨rfl, rfl⟩⟩
    · exact (integer_of_sign (plain number spelled)).mpr ⟨range, number, spelled, rfl⟩
    · exact (integer_of_sign rfl).mpr ⟨range, number, spelled, rfl⟩
    · exact (integer_of_sign rfl).mpr ⟨range, number, spelled, rfl⟩

end Numeral

/-- The characters that are equal to one of the letters in true and false up to case. S also has a long form. -/
def caseVariants (letter : Char) : List Char :=
  if letter = 's' then ['s', 'S', '\u017F'] else [letter, Char.ofNat (letter.toNat - 0x20)]

def Text.SpellsTruth (text : Text) (value : Bool) : Prop :=
  List.Forall₂ (fun letter glyph => ∃ char ∈ caseVariants letter, glyph = .scalar char)
    (if value then "true" else "false").toList text.glyphs

theorem Text.equalsFolded_iff {text : Text} {value : Bool} :
    text.equalsFolded (if value then "true" else "false") = true ↔ text.SpellsTruth value := by
  have folds : ∀ {letters : List Char} {glyphs : List Glyph},
      (∀ letter ∈ letters, ∀ char : Char, foldsWith letter.toNat char.toNat = true ↔
        char ∈ caseVariants letter) →
      (glyphsFold (letters.map Char.toNat) glyphs = true ↔ List.Forall₂
        (fun letter glyph => ∃ char ∈ caseVariants letter, glyph = .scalar char) letters glyphs) := by
    intro letters glyphs each
    induction letters generalizing glyphs with
    | nil => cases glyphs <;> simp [glyphsFold]
    | cons letter rest ih =>
      have onward := @ih
      cases glyphs with
      | nil => simp [glyphsFold]
      | cons glyph others =>
        cases glyph with
        | stray byte => simp [glyphsFold]
        | scalar char =>
          simp only [map_cons, glyphsFold, Bool.and_eq_true, forall₂_cons,
            each letter mem_cons_self,
            ih (forall_mem_cons.mp each).2]
          simp
  refine folds fun letter member char => ?_
  have same : ∀ other : Char, char = other ↔ char.toNat = other.toNat := fun other =>
    ⟨congrArg _, fun equal => Char.ext (UInt32.toNat_inj.mp equal)⟩
  have listed : letter ∈ "trufals".toList ∨ letter = 'e' := by
    cases value <;> simp at member ⊢ <;> tauto
  simp at listed
  obtain rfl | rfl | rfl | rfl | rfl | rfl | rfl | rfl := by simpa [or_assoc] using listed
  all_goals simp [foldsWith, caseVariants, same]

/-- A literal to be entered: its text, and whether it is that of a character. -/
structure LiteralCall where
  text : Text
  isCharacter : Bool
deriving DecidableEq, Repr

namespace LiteralCall

/-- The constant that a literal converts to, by the first rule that is for it. -/
inductive Converts : LiteralCall → Constant → Prop where
  | character {text : Text} {glyph : Glyph} (single : text.glyphs = [glyph]) :
    Converts ⟨text, true⟩ ⟨text, .char glyph.code⟩
  | truth {text : Text} {value : Bool} (spelled : text.SpellsTruth value) :
    Converts ⟨text, false⟩ ⟨((if value then "true" else "false" : String) : Text), .boolean value⟩
  | float {text : Text} {bits : UInt64} (number : ∀ value, ¬ text.SpellsTruth value)
    (point : 0x2E ∈ text) (read : Numeral.binary64 text = .ok bits) :
    Converts ⟨text, false⟩ ⟨text, .float bits⟩
  | int {text : Text} {value : Int} (number : ∀ value, ¬ text.SpellsTruth value)
    (whole : 0x2E ∉ text) (spelled : Numeral.SpellsInteger text value) :
    Converts ⟨text, false⟩ ⟨text, .int value⟩

/-- Two literals of one type with the same text, or truth values that are the same up to case. -/
def SameAs (one other : LiteralCall) : Prop :=
  ∃ first second, one.Converts first ∧ other.Converts second ∧ first.type = second.type ∧
    (one.text = other.text ∨ ∃ value, first.value = .boolean value ∧ second.value = .boolean value)

variable {call : LiteralCall} {constant : Constant}

theorem converts_iff :
    call.Converts constant ↔ Constant.ofLiteral call.text call.isCharacter = .ok constant := by
  have isTrue := @Text.equalsFolded_iff call.text true
  have isFalse := @Text.equalsFolded_iff call.text false
  obtain ⟨text, isCharacter⟩ := call
  simp only [if_true, if_false, Bool.false_eq_true] at isTrue isFalse
  constructor
  · intro converts
    cases converts with
    | character single => simp [Constant.ofLiteral, Constant.ofCharacter, single]
    | @truth _ value spelled =>
      cases value with
      | true => simp [Constant.ofLiteral, Constant.ofWord, isTrue.mpr spelled]
      | false =>
        -- The two words differ in length, so no text spells both.
        have notTrue : ¬ text.equalsFolded "true" = true := fun both => by
          have lengths := (isTrue.mp both).length_eq.trans spelled.length_eq.symm
          exact absurd lengths (by decide)
        simp [Constant.ofLiteral, Constant.ofWord, notTrue, isFalse.mpr spelled]
    | float number point read =>
      simp [Constant.ofLiteral, Constant.ofWord, mt isTrue.mp (number true),
        mt isFalse.mp (number false), point, read]
    | int number whole spelled =>
      simp [Constant.ofLiteral, Constant.ofWord, mt isTrue.mp (number true),
        mt isFalse.mp (number false), whole, Numeral.integer_eq_ok.mpr spelled]
  · intro made
    cases isCharacter with
    | true =>
      simp only [Constant.ofLiteral, if_true, Constant.ofCharacter] at made
      split at made
      · next single =>
        cases made
        exact .character single
      · cases made
    | false =>
      simp only [Constant.ofLiteral, Bool.false_eq_true, if_false, Constant.ofWord] at made
      split at made
      · next spelled =>
        cases made
        exact .truth (isTrue.mp spelled)
      split at made
      · next spelled =>
        cases made
        exact .truth (isFalse.mp spelled)
      next notTrue notFalse =>
      have number : ∀ value, ¬ text.SpellsTruth value := by
        rintro (_ | _)
        · exact mt isFalse.mpr notFalse
        · exact mt isTrue.mpr notTrue
      split at made
      · next point =>
        split at made
        · next read =>
          cases made
          exact .float number (by simpa using point) read
        · cases made
      · next whole =>
        split at made
        · next read =>
          cases made
          exact .int number (by simpa using whole) (Numeral.integer_eq_ok.mp read)
        · cases made

variable {left right : Constant}

theorem Converts.unique (ofLeft : call.Converts left) (ofRight : call.Converts right)
    : left = right :=
  Except.ok.inj ((converts_iff.mp ofLeft).symm.trans (converts_iff.mp ofRight))

theorem Converts.own (converts : call.Converts constant) :
    (LiteralCall.mk constant.text (decide (constant.type = .char))).Converts constant := by
  cases converts with
  | character single => exact .character single
  | @truth _ value _ =>
    refine .truth (Text.equalsFolded_iff.mp ?_)
    cases value <;> decide
  | float number point read => exact .float number point read
  | int number whole spelled => exact .int number whole spelled

variable {one other : LiteralCall}

/-- A type and a text belong to one constant only. -/
theorem Converts.eq_of_same (ofLeft : one.Converts left) (ofRight : other.Converts right)
    (sameType : left.type = right.type) (sameText : left.text = right.text) : left = right := by
  have own := ofRight.own
  rw [← sameType, ← sameText] at own
  exact ofLeft.own.unique own

/-- A truth value is entered in one spelling, and anything else as it is written. -/
theorem Converts.text_eq (converts : call.Converts constant) :
    constant.text = call.text ∨
      ∃ value, constant = ⟨((if value then "true" else "false" : String) : Text), .boolean value⟩ := by
  cases converts with
  | truth => exact .inr ⟨_, rfl⟩
  | _ => exact .inl rfl

theorem Converts.isCharacter_eq (converts : call.Converts constant) :
    call.isCharacter = decide (constant.type = .char) := by
  cases converts <;> rfl

/-- Literals are the same exactly if they convert to one constant. -/
theorem sameAs_iff {first second : Constant} (ofOne : one.Converts first)
    (ofOther : other.Converts second) : one.SameAs other ↔ first = second := by
  constructor
  · rintro ⟨left, right, isLeft, isRight, sameType, same⟩
    obtain rfl := isLeft.unique ofOne
    obtain rfl := isRight.unique ofOther
    rcases same with sameText | ⟨value, ofLeft, ofRight⟩
    · have sameKind : one.isCharacter = other.isCharacter := by
        rw [isLeft.isCharacter_eq, isRight.isCharacter_eq, sameType]
      have sameCall : one = other := by
        cases one
        cases other
        exact congr (congrArg _ sameText) sameKind
      subst sameCall
      exact isLeft.unique isRight
    · refine isLeft.eq_of_same isRight sameType ?_
      cases isLeft <;> cases ofLeft
      cases isRight <;> cases ofRight
      rfl
  · rintro rfl
    refine ⟨first, first, ofOne, ofOther, rfl, ?_⟩
    rcases ofOne.text_eq with text | ⟨value, rfl⟩
    · rcases ofOther.text_eq with other | ⟨value, rfl⟩
      · exact .inl (text.symm.trans other)
      · exact .inr ⟨value, rfl, rfl⟩
    · exact .inr ⟨value, rfl, rfl⟩

end LiteralCall

/-- A key tells type and text: the number of a type is one digit, so that the text begins behind the colon. -/
theorem Constant.key_eq_iff {left right : Constant} :
    left.key = right.key ↔ left.type = right.type ∧ left.text = right.text := by
  have digit : ∀ type : ValueType, (Text.ofNat type.number).length = 1 := by
    intro type
    cases type <;> rfl
  constructor
  · intro same
    obtain ⟨front, text⟩ := append_inj same (by simp [digit])
    obtain ⟨number, -⟩ := append_inj front (by simp [digit])
    refine ⟨?_, text⟩
    have numbers := Text.ofNat_injective number
    revert numbers
    generalize left.type = one
    generalize right.type = other
    cases one <;> cases other <;> simp [ValueType.number]
  · rintro ⟨type, text⟩
    rw [key, key, type, text]

namespace ConstantTable

def Genuine (table : ConstantTable) : Prop :=
  ∀ constant ∈ table.constants, ∃ call : LiteralCall, call.Converts constant

variable {table : ConstantTable} {call : LiteralCall} {constant : Constant}

/-- A literal is entered under a handle of its own constant, which is added if it is new. -/
theorem intern_converts (genuine : table.Genuine) (converts : call.Converts constant) :
    ∃ handle after, table.intern call.text call.isCharacter = .ok (handle, after) ∧
      after.lookup? handle = some constant ∧ after.constants =
        if constant ∈ table.constants then table.constants else table.constants ++ [constant] := by
  have made := LiteralCall.converts_iff.mp converts
  simp only [intern, enter, lookup_index, made, bind, Except.bind, pure, Except.pure]
  split
  · -- An entry with the same key has the same type and text, and so is the same constant.
    next index found =>
    obtain ⟨place, isPlace, rfl⟩ := Option.map_eq_some_iff.mp found
    obtain ⟨inside, same, _⟩ := findIdx?_eq_some_iff_getElem.mp isPlace
    obtain ⟨other, isOther⟩ := genuine _ (getElem_mem inside)
    obtain ⟨type, text⟩ := Constant.key_eq_iff.mp (eq_of_beq same)
    have equal := isOther.eq_of_same converts type text
    refine ⟨_, table, rfl, ?_, (if_pos (equal ▸ getElem_mem inside)).symm⟩
    rw [← equal]
    exact getElem?_eq_getElem inside
  · next new =>
    refine ⟨_, _, rfl, by simp [lookup?, size], (if_neg fun member => ?_).symm⟩
    have other := findIdx?_eq_none_iff.mp (Option.map_eq_none_iff.mp new) constant member
    simp at other

/-- The index of a table follows from its constants. -/
theorem eq_of_constants {other : ConstantTable} (same : table.constants = other.constants) :
    table = other := by
  obtain ⟨constants, index, indexed⟩ := table
  obtain ⟨others, otherIndex, otherIndexed⟩ := other
  cases same
  subst indexed otherIndexed
  rfl

theorem Genuine.grown {after : ConstantTable} (genuine : table.Genuine)
    (converts : call.Converts constant) (grown : after.constants =
      if constant ∈ table.constants then table.constants else table.constants ++ [constant]) :
    table.constants <+: after.constants ∧ after.Genuine := by
  rw [Genuine, grown]
  split
  · exact ⟨prefix_rfl, genuine⟩
  · refine ⟨prefix_append .., fun other member => ?_⟩
    rcases mem_append.mp member with old | new
    · exact genuine other old
    · exact ⟨call, mem_singleton.mp new ▸ converts⟩

/-- The answer to the call to enter a literal, and the table behind it. -/
def serve (table : ConstantTable) (call : LiteralCall) : Except Diagnostic Handle × ConstantTable :=
  match table.intern call.text call.isCharacter with
  | .ok (handle, after) => (.ok handle, after)
  | .error error => (.error error, table)

/-- The answers to calls one after the other, and the table behind the last one. -/
def serveAll (table : ConstantTable) :
    List LiteralCall → List (Except Diagnostic Handle) × ConstantTable
  | [] => ([], table)
  | call :: calls =>
    let after := (table.serve call).2.serveAll calls
    ((table.serve call).1 :: after.1, after.2)

/-- A call enters the constant of its literal, or there is none and nothing changes. -/
theorem serve_cases (genuine : table.Genuine) (call : LiteralCall) :
    (∃ handle constant, call.Converts constant ∧ (table.serve call).1 = .ok handle ∧
      (table.serve call).2.lookup? handle = some constant ∧ (table.serve call).2.constants =
        if constant ∈ table.constants then table.constants else table.constants ++ [constant]) ∨
    (∀ constant, ¬ call.Converts constant) ∧ ∃ error, table.serve call = (.error error, table) := by
  by_cases convertible : ∃ constant, call.Converts constant
  · obtain ⟨constant, converts⟩ := convertible
    obtain ⟨handle, after, interned, found, grown⟩ := intern_converts genuine converts
    exact .inl ⟨handle, constant, converts, by simp [serve, interned], by simpa [serve, interned],
      by simpa [serve, interned]⟩
  · rw [not_exists] at convertible
    refine .inr ⟨convertible, ?_⟩
    cases made : Constant.ofLiteral call.text call.isCharacter with
    | ok constant => exact absurd (LiteralCall.converts_iff.mpr made) (convertible constant)
    | error error => exact ⟨error, by simp [serve, intern, made, bind, Except.bind]⟩

/-- What the calls made so far, with their answers, say about a table. -/
structure Reflects (history : List (LiteralCall × Except Diagnostic Handle)) (table : ConstantTable) :
    Prop where
  nodup : table.constants.Nodup
  mem_iff : ∀ constant, constant ∈ table.constants ↔ ∃ entry ∈ history, entry.1.Converts constant
  answered : ∀ entry ∈ history,
    (∃ handle constant, entry.2 = .ok handle ∧ entry.1.Converts constant ∧
      table.lookup? handle = some constant) ∨
    (∃ error, entry.2 = .error error) ∧ ∀ constant, ¬ entry.1.Converts constant

variable {history : List (LiteralCall × Except Diagnostic Handle)}

section

variable (reflects : Reflects history table)
include reflects

theorem Reflects.genuine : table.Genuine := fun constant member =>
  have ⟨entry, _, converts⟩ := (reflects.mem_iff constant).mp member
  ⟨entry.1, converts⟩

theorem Reflects.serve (call : LiteralCall) :
    Reflects (history ++ [(call, (table.serve call).1)]) (table.serve call).2 ∧
      table.constants <+: (table.serve call).2.constants := by
  rcases serve_cases reflects.genuine call with
    ⟨handle, constant, converts, answer, found, grown⟩ | ⟨foreign, error, served⟩
  · have stays := (reflects.genuine.grown converts grown).1
    refine ⟨⟨?_, fun other => ?_, fun entry member => ?_⟩, stays⟩
    · rw [grown]
      split
      · exact reflects.nodup
      · next new => simpa [← concat_eq_append, nodup_concat] using ⟨new, reflects.nodup⟩
    · have inGrown : other ∈ (table.serve call).2.constants ↔
          other ∈ table.constants ∨ other = constant := by
        rw [grown]
        split <;> grind
      have isOwn : call.Converts other ↔ other = constant :=
        ⟨fun own => own.unique converts, fun equal => equal ▸ converts⟩
      simp only [inGrown, reflects.mem_iff, mem_append, mem_singleton, or_and_right,
        exists_or, exists_eq_left, isOwn]
    · rcases mem_append.mp member with old | new
      · refine (reflects.answered entry old).imp_left ?_
        rintro ⟨handle, constant, answer, converts, found⟩
        exact ⟨handle, constant, answer, converts, lookup?_of_prefix stays found⟩
      · obtain rfl := mem_singleton.mp new
        exact .inl ⟨handle, constant, answer, converts, found⟩
  · rw [served]
    refine ⟨⟨reflects.nodup, fun other => ?_, fun entry member => ?_⟩, prefix_rfl⟩
    · simp [reflects.mem_iff, or_and_right, exists_or, foreign]
    · rcases mem_append.mp member with old | new
      · exact reflects.answered entry old
      · obtain rfl := mem_singleton.mp new
        exact .inr ⟨⟨error, rfl⟩, foreign⟩

theorem Reflects.serveAll (calls : List LiteralCall) :
    Reflects (history ++ calls.zip (table.serveAll calls).1) (table.serveAll calls).2 ∧
      table.constants <+: (table.serveAll calls).2.constants ∧
      (table.serveAll calls).1.length = calls.length := by
  induction calls generalizing history table with
  | nil => simpa [ConstantTable.serveAll] using reflects
  | cons call calls ih =>
    have ⟨next, stays⟩ := reflects.serve call
    have ⟨last, remains, lengths⟩ := ih next
    refine ⟨?_, stays.trans remains, by simp [ConstantTable.serveAll, lengths]⟩
    simpa [ConstantTable.serveAll] using last

end

theorem serveAll_append (table : ConstantTable) (calls later : List LiteralCall) :
    (table.serveAll (calls ++ later)).2 = ((table.serveAll calls).2.serveAll later).2 := by
  induction calls generalizing table with
  | nil => rfl
  | cons call calls ih => exact ih _

theorem empty_reflects : Reflects [] empty :=
  ⟨nodup_nil, fun constant => by simp [empty], fun entry member => absurd member not_mem_nil⟩

theorem Reflects.handles_eq_iff (reflects : Reflects history table) {one other : Handle}
    {first second : Constant} (ofOne : table.lookup? one = some first)
    (ofOther : table.lookup? other = some second) : one = other ↔ first = second := by
  constructor
  · rintro rfl
    exact Option.some.inj (ofOne.symm.trans ofOther)
  · rintro rfl
    cases one with
    | negSucc => cases ofOne
    | ofNat one =>
      cases other with
      | negSucc => cases ofOther
      | ofNat other =>
        have inside := (List.getElem?_eq_some_iff.mp ofOne).1
        exact congrArg Int.ofNat
          ((getElem?_inj inside reflects.nodup).mp (ofOne.trans ofOther.symm))

/-- A constant has an entry exactly if the literal of some call is the same. -/
theorem Reflects.mem_iff_sameAs (reflects : Reflects history table)
    (converts : call.Converts constant) :
    constant ∈ table.constants ↔ ∃ entry ∈ history, entry.1.SameAs call := by
  rw [reflects.mem_iff]
  refine exists_congr fun entry => and_congr_right fun _ => ⟨fun own => ?_, fun same => ?_⟩
  · exact (LiteralCall.sameAs_iff own converts).mpr rfl
  · have ⟨first, _, own, _⟩ := same
    exact (LiteralCall.sameAs_iff own converts).mp same ▸ own

/--
A table tells literals apart.

Whatever literals are entered in a table that is empty at first, a call gets a handle exactly if its literal converts to a constant.
From then on the constant is found under the handle, and two calls get one handle exactly if their literals are the same.
Only a literal that converts and is not the same as an earlier one adds an entry, its constant.
-/
theorem serveAll_tells_literals_apart (calls : List LiteralCall) :
    let answers := (empty.serveAll calls).1
    let table := (empty.serveAll calls).2
    answers.length = calls.length ∧
    (∀ call answer, (call, answer) ∈ calls.zip answers →
      ((∃ handle, answer = .ok handle) ↔ ∃ constant, call.Converts constant) ∧
      ∀ handle, answer = .ok handle → ∃ constant, call.Converts constant ∧
        ∀ later, (empty.serveAll (calls ++ later)).2.lookup? handle = some constant) ∧
    (∀ one first other second, (one, .ok first) ∈ calls.zip answers →
      (other, .ok second) ∈ calls.zip answers → (first = second ↔ one.SameAs other)) ∧
    ∀ call, (∀ constant, call.Converts constant → (∀ earlier ∈ calls, ¬ earlier.SameAs call) →
        (empty.serveAll (calls ++ [call])).2.constants = table.constants ++ [constant]) ∧
      ((∀ constant, ¬ call.Converts constant) ∨ (∃ earlier ∈ calls, earlier.SameAs call) →
        (empty.serveAll (calls ++ [call])).2 = table) := by
  intro answers table
  obtain ⟨reflects, -, lengths⟩ := empty_reflects.serveAll calls
  rw [nil_append] at reflects
  have settled : ∀ {call handle}, (call, Except.ok handle) ∈ calls.zip answers →
      ∃ constant, call.Converts constant ∧ table.lookup? handle = some constant := by
    intro call handle member
    rcases reflects.answered _ member with ⟨_, constant, answer, converts, found⟩ | ⟨⟨_, failed⟩, _⟩
    · cases answer
      exact ⟨constant, converts, found⟩
    · cases failed
  refine ⟨lengths, fun call answer member => ⟨⟨?_, ?_⟩, ?_⟩, ?_, fun call => ?_⟩
  · rintro ⟨handle, rfl⟩
    exact (settled member).imp fun constant made => made.1
  · rintro ⟨constant, converts⟩
    rcases reflects.answered _ member with ⟨handle, _, answer, _⟩ | ⟨_, foreign⟩
    · exact ⟨handle, answer⟩
    · exact absurd converts (foreign constant)
  · rintro handle rfl
    obtain ⟨constant, converts, found⟩ := settled member
    refine ⟨constant, converts, fun later => ?_⟩
    rw [serveAll_append]
    exact lookup?_of_prefix (reflects.serveAll later).2.1 found
  · intro one first other second ofOne ofOther
    obtain ⟨left, isLeft, foundLeft⟩ := settled ofOne
    obtain ⟨right, isRight, foundRight⟩ := settled ofOther
    rw [reflects.handles_eq_iff foundLeft foundRight, LiteralCall.sameAs_iff isLeft isRight]
  · have known : ∀ {constant}, call.Converts constant →
        (constant ∈ table.constants ↔ ∃ earlier ∈ calls, earlier.SameAs call) := by
      intro constant converts
      have made : (calls.zip answers).map Prod.fst = calls := map_fst_zip lengths.ge
      rw [reflects.mem_iff_sameAs converts]
      conv_rhs => rw [← made]
      simp [answers]
    rw [serveAll_append]
    change (∀ constant, _ → _ → (table.serve call).2.constants = _) ∧ (_ → (table.serve call).2 = _)
    rcases serve_cases reflects.genuine call with
      ⟨handle, constant, converts, answer, found, grown⟩ | ⟨foreign, error, served⟩
    · refine ⟨fun other own new => ?_, fun old => ?_⟩
      · obtain rfl := own.unique converts
        rw [grown, if_neg fun old => ?_]
        obtain ⟨earlier, member, same⟩ := (known own).mp old
        exact new earlier member same
      · rcases old with foreign | same
        · exact absurd converts (foreign constant)
        · rw [if_pos ((known converts).mpr same)] at grown
          exact eq_of_constants grown
    · exact ⟨fun constant converts => absurd converts (foreign constant), fun _ => by rw [served]⟩

end ConstantTable

end ThreeAddress

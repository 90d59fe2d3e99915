import ThreeAddress.Proofs.Language.Scanning

/-!
What reading a program does word by word.

Every token comes from a piece of the text, and either makes a new entry in the symbol table or not.
-/

namespace ThreeAddress.Language

/-- The tokens of some pieces, each with whether reading it made a new entry in the symbol table. -/
def trace : List (Piece WordKind) → LexerState → List (Token × Bool)
  | [], _ => []
  | piece :: rest, state =>
    match interpret piece state with
    | (.skipped, after) | (.rejected _, after) => trace rest after
    | (.fault _, _) => []
    | (.token token _, after) =>
      (token, decide (state.table.size < after.table.size)) :: trace rest after

/-- The tokens of a text, each with whether it was read as a declaration. -/
def traceText (text : Text) : List (Token × Bool) :=
  trace (lexicon.pieces text) { environment := .empty }

/-- Reading tokens one after the other, each with whether it makes a new entry. -/
inductive Traces : LexerState → List (Token × Bool) → LexerState → Prop where
  | nil {state : LexerState} : Traces state [] state
  | cons {state middle after : LexerState} {token : Token} {entries : List (Token × Bool)}
      (first : Step state token middle) (rest : Traces middle entries after) :
      Traces state ((token, decide (state.table.size < middle.table.size)) :: entries) after

variable {state after : LexerState}

theorem Traces.scans {entries : List (Token × Bool)} (traces : Traces state entries after)
    : Scans state (entries.map Prod.fst) after := by
  induction traces with
  | nil => exact .nil
  | cons first _ ih => exact .cons first ih

theorem interpret_token {piece : Piece WordKind} {token : Token} {errors : List Diagnostic}
    (read : interpret piece state = (.token token errors, after)) :
    token.lexeme = piece.text ∧ (token.category = identifier ∨ token.category = constant ∨
      piece.kind = some (.fixed token.category)) := by
  -- Both ways to complete a token keep its text and its category.
  have finished : ∀ {origin : Token} {result : Except Failure Handle} {state : LexerState},
      finish origin result state = (.token token errors, after) →
      token.lexeme = origin.lexeme ∧ token.category = origin.category := by
    intro origin result state done
    unfold finish at done
    split at done <;> cases done <;> exact ⟨rfl, rfl⟩
  have interned : ∀ {origin : Token} {text : Text} {isCharacter : Bool} {state : LexerState},
      literal origin text isCharacter state = (.token token errors, after) →
      token.lexeme = origin.lexeme ∧ token.category = origin.category := by
    intro origin text isCharacter state done
    unfold literal at done
    split at done
    · cases done
    · exact finished done
  unfold interpret at read
  split at read
  · cases read
  · cases read
  · exact ⟨(finished read).1, .inl (finished read).2⟩
  · exact ⟨(interned read).1, .inr (.inl (interned read).2)⟩
  · exact ⟨(interned read).1, .inr (.inl (interned read).2)⟩
  · rename_i category kind
    obtain ⟨lexeme, same⟩ := finished read
    exact ⟨lexeme, .inr (.inr (by rw [kind, same]))⟩

variable {pieces : List (Piece WordKind)} {entry : Token × Bool}

theorem piece_of_trace :
    ∀ {state : LexerState}, entry ∈ trace pieces state →
    ∃ piece ∈ pieces, entry.1.lexeme = piece.text ∧
      (entry.1.category = identifier ∨ entry.1.category = constant ∨
        piece.kind = some (.fixed entry.1.category)) := by
  induction pieces with
  | nil => exact fun member => absurd member List.not_mem_nil
  | cons piece rest ih =>
    intro state member
    have later : ∀ {state : LexerState}, entry ∈ trace rest state →
        ∃ other ∈ piece :: rest, entry.1.lexeme = other.text ∧
          (entry.1.category = identifier ∨ entry.1.category = constant ∨
            other.kind = some (.fixed entry.1.category)) := by
      intro state inside
      obtain ⟨other, found, holds⟩ := ih inside
      exact ⟨other, List.mem_cons_of_mem _ found, holds⟩
    simp only [trace] at member
    split at member
    · exact later member
    · exact later member
    · exact absurd member List.not_mem_nil
    · rename_i read
      rcases List.mem_cons.mp member with rfl | inside
      · exact ⟨piece, List.mem_cons_self, interpret_token read⟩
      · exact later inside

theorem trace_not_end (numbered : ∀ piece ∈ pieces, piece.kind.all WordKind.isNumbered = true)
    (member : entry ∈ trace pieces state) : entry.1.isEnd = false := by
  obtain ⟨piece, inside, _, category⟩ := piece_of_trace member
  rw [Token.isEnd, beq_eq_false_iff_ne]
  -- The end of input has a reserved category, and kinds of pieces are numbered from zero.
  rcases category with is | is | kind
  · rw [is]
    decide
  · rw [is]
    decide
  · have least := numbered piece inside
    simp only [kind, Option.all_some, WordKind.isNumbered, decide_eq_true_eq] at least
    intro same
    rw [same] at least
    exact absurd least (by decide)

end ThreeAddress.Language

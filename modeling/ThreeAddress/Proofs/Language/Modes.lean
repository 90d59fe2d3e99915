import ThreeAddress.Proofs.Language.Places

/-!
Where the words of a program stand.

A mode tells whether a word belongs to the header of a function, to its body or to the main block, how many braces are open there, and which words of a declaration came last.
Every symbol of the grammar leads from one mode to another, whatever text it derives, and what a leaf does can be told from the words before it.
-/

namespace ThreeAddress.Language

open List

/-- The number of open braces of a block behind a symbol, unless the symbol has no place there. -/
def Role.inner (role : Role) (depth : Nat) : Option Nat :=
  match role with
  | .word category =>
    if category = openBrace then some (depth + 1)
    else if category = closeBrace then if depth = 0 then none else some (depth - 1)
    else if category = functionWord ∨ category = startWord ∨ category = endWord then none
    else some depth
  | .program | .functions | .function | .params | .paramsTail | .param => none
  | _ => some depth

/-- Whether a type was read last behind a symbol of a list of parameters, unless it has no place there. -/
def Role.listed (role : Role) (typed : Bool) : Option Bool :=
  match role, typed with
  | .params, false | .paramsTail, false | .param, false => some false
  | .type, false | .typeWord, false => some true
  | .name, true => some false
  | .word category, false => if category = comma then some false else none
  | _, _ => none

/-- The last words of a block: none of a declaration, the word that opens one, or also its type. -/
inductive Window where
  | free
  | opened
  | typed
deriving DecidableEq, Repr

/-- The last words behind a symbol of a block, unless the symbol has no place there. -/
def Window.after (window : Window) (role : Role) : Option Window :=
  match window, role with
  | free, .word category => some (if category = variableWord then opened else free)
  | free, .type | free, .typeWord => none
  | free, _ => some free
  | opened, .type | opened, .typeWord => some typed
  | typed, .name => some free
  | _, _ => none

/-- What a symbol of a block does. -/
def Window.act (window : Window) (role : Role) : Act :=
  if window = typed ∧ role = .name then .declare else .plain

/-- The number of open braces and the last words of a block behind a symbol, unless it has no place there. -/
def Role.within (role : Role) (place : Nat × Window) : Option (Nat × Window) := do
  let depth ← role.inner place.1
  let window ← place.2.after role
  return (depth, window)

/-- What is behind a symbol of a block that does its act. -/
def blockAfter (place : Nat × Window) (entry : Role × Act) : Option (Nat × Window) :=
  if entry.2 = place.2.act entry.1 then entry.1.within place else none

/-- The place of a word. -/
inductive Mode where
  /-- Between functions. -/
  | outside
  /-- Behind the word that opens a function, its type, and then its name. -/
  | opened
  | typed
  | header
  /-- Behind the type of a parameter. -/
  | headerTyped
  /-- Behind the parameters. -/
  | closed
  /-- In the body of a function, with a number of further braces open and the last words. -/
  | body (depth : Nat) (window : Window)
  /-- In the main block. -/
  | main (depth : Nat) (window : Window)
  | finished
deriving DecidableEq, Repr

/-- The mode behind a symbol. -/
def Mode.after (mode : Mode) (role : Role) : Option Mode :=
  match mode, role with
  | outside, .program => some finished
  | outside, .functions => some outside
  | outside, .function => some outside
  | outside, .word category =>
    if category = functionWord then some opened
    else if category = startWord then some (main 0 .free)
    else none
  | opened, .type => some typed
  | opened, .typeWord => some typed
  | typed, .name => some header
  | header, .params => some header
  | header, .paramsTail => some header
  | header, .param => some header
  | header, .type => some headerTyped
  | header, .typeWord => some headerTyped
  | header, .word category =>
    if category = openParen ∨ category = comma then some header
    else if category = closeParen then some closed
    else none
  | headerTyped, .name => some header
  | closed, .word category => if category = openBrace then some (body 0 .free) else none
  | body depth window, role =>
    if depth = 0 ∧ role = .word closeBrace then some outside
    else (role.within (depth, window)).map fun inner => body inner.1 inner.2
  | main depth window, role =>
    if depth = 0 ∧ role = .word endWord then some finished
    else (role.within (depth, window)).map fun inner => main inner.1 inner.2
  | _, _ => none

/-- What a symbol does. -/
def Mode.act : Mode → Role → Act
  | outside, .word category => if category = startWord then .openMain else .plain
  | typed, .name => .declareFunction
  | headerTyped, .name => .declare
  | body depth window, role => if depth = 0 ∧ role = .word closeBrace then .close else window.act role
  | main depth window, role => if depth = 0 ∧ role = .word endWord then .close else window.act role
  | _, _ => .plain

/-- The mode behind a symbol that does its act. -/
def placeAfter (mode : Mode) (entry : Role × Act) : Option Mode :=
  if entry.2 = mode.act entry.1 then mode.after entry.1 else none

/-- The number of open braces behind several symbols. -/
def Role.innerAll (depth : Nat) (roles : List Role) : Option Nat :=
  roles.foldlM (fun depth role => role.inner depth) depth

variable {depth next : Nat} {role : Role} {roles : List Role} {tree : SyntaxTree}

theorem innerAll_bodies (member : roles ∈ role.bodies) (inner : role.inner depth = some next) :
    Role.innerAll depth roles = some next := by
  cases role with
  | program | functions | function | params | paramsTail | param => simp [Role.inner] at inner
  | name | literal | typeWord | operator | word category => simp [Role.bodies] at member
  | _ =>
    simp only [Role.bodies, mem_cons, not_mem_nil, or_false] at member
    rcases member with rfl | rfl | rfl | rfl | rfl | rfl
    all_goals exact inner

theorem listedAll_bodies (member : roles ∈ role.bodies) {typed next : Bool}
    (listed : role.listed typed = some next) :
    roles.foldlM (fun typed role => role.listed typed) typed = some next := by
  cases typed with
  | true =>
    cases role with
    | name => simp [Role.bodies] at member
    | _ => cases listed
  | false =>
    cases role with
    | params | paramsTail | param | type =>
      cases listed
      simp only [Role.bodies, mem_cons, not_mem_nil, or_false] at member
      rcases member with rfl | rfl <;> rfl
    | typeWord | word category => simp [Role.bodies] at member
    | _ => cases listed

theorem blockAfter_bodies (member : roles ∈ role.bodies) {place next : Nat × Window}
    (leads : role.within place = some next) :
    (role.acting 0 roles).foldlM blockAfter place = some next := by
  obtain ⟨depth, window⟩ := place
  cases role with
  -- Parts outside of all blocks have no place in one, and words have no body.
  | program | functions | function | params | paramsTail | param => cases leads
  | name | literal | typeWord | operator | word category => simp [Role.bodies] at member
  | _ =>
    simp only [Role.bodies, mem_cons, not_mem_nil, or_false] at member
    -- What is left are finitely many bodies behind each of the three windows.
    cases window
    all_goals cases leads
    all_goals rcases member with rfl | rfl | rfl | rfl | rfl | rfl
    all_goals rfl

/-- Within a block that only its last word leads out of, modes go on as in any block. -/
theorem placeAfter_block (block : Nat → Window → Mode) (last : Role) (outer : last.inner 0 = none)
    (within : ∀ {depth : Nat} {window : Window} {entry : Role × Act}, ¬ (depth = 0 ∧ entry.1 = last) →
      placeAfter (block depth window) entry =
        (blockAfter (depth, window) entry).map fun inner => block inner.1 inner.2)
    {entries : List (Role × Act)} {place next : Nat × Window}
    (leads : entries.foldlM blockAfter place = some next) :
    entries.foldlM placeAfter (block place.1 place.2) = some (block next.1 next.2) := by
  induction entries generalizing place with
  | nil =>
    cases leads
    rfl
  | cons entry rest ih =>
    rw [foldlM_cons] at leads ⊢
    obtain ⟨middle, first, others⟩ := Option.bind_eq_some_iff.mp leads
    -- The closing word leads out of every block, so it does not stand on the way within one.
    have inside : ¬ (place.1 = 0 ∧ entry.1 = last) := by
      rintro ⟨top, same⟩
      rw [blockAfter, Role.within, same, top, outer] at first
      simp at first
    rw [within inside, first]
    exact ih others

theorem placeAfter_bodies (member : roles ∈ role.bodies) {mode next : Mode}
    (leads : mode.after role = some next) :
    (role.acting 0 roles).foldlM placeAfter mode = some next := by
  have notWord : ∀ category, role ≠ .word category := by
    rintro category rfl
    simp [Role.bodies] at member
  cases mode with
  | body depth window =>
    simp only [Mode.after, notWord, and_false, if_false] at leads
    obtain ⟨inner, found, rfl⟩ := Option.map_eq_some_iff.mp leads
    refine placeAfter_block .body (.word closeBrace) rfl (fun inside => ?_)
      (blockAfter_bodies member found)
    simp only [placeAfter, Mode.act, Mode.after, if_neg inside, blockAfter]
    split <;> rfl
  | main depth window =>
    simp only [Mode.after, notWord, and_false, if_false] at leads
    obtain ⟨inner, found, rfl⟩ := Option.map_eq_some_iff.mp leads
    refine placeAfter_block .main (.word endWord) rfl (fun inside => ?_)
      (blockAfter_bodies member found)
    simp only [placeAfter, Mode.act, Mode.after, if_neg inside, blockAfter]
    split <;> rfl
  | _ =>
    cases role with
    | word category => exact absurd rfl (notWord category)
    | _ =>
      cases leads
      all_goals simp only [Role.bodies, mem_cons, not_mem_nil, or_false] at member
      all_goals rcases member with rfl | rfl
      all_goals rfl

/-- A symbol leads from mode to mode only if it does its act. -/
theorem of_placeAfter {mode next : Mode} {act : Act}
    (leads : placeAfter mode (role, act) = some next) :
    act = mode.act role ∧ mode.after role = some next := by
  simpa [placeAfter] using leads

theorem afterAll_bodies (member : roles ∈ role.bodies) {mode next : Mode}
    (leads : mode.after role = some next) : roles.foldlM Mode.after mode = some next := by
  have body := placeAfter_bodies member leads
  rw [← map_acting role roles, foldlM_map]
  clear leads
  generalize role.acting 0 roles = entries at body
  induction entries generalizing mode with
  | nil => exact body
  | cons entry rest ih =>
    rw [foldlM_cons] at body ⊢
    obtain ⟨middle, first, others⟩ := Option.bind_eq_some_iff.mp body
    rw [(of_placeAfter first).2]
    exact ih others

section

variable (derivation : standardGrammar.IsDerivation tree)
include derivation

/-- The leaves of a derivation lead from mode to mode, each doing what the words before it tell. -/
theorem placeAfter_acts {act : Act}
    {mode next : Mode}
    (leads : placeAfter mode (Role.ofSymbol (SyntaxTree.symbol tree), act) = some next) :
    ((actsFrom act tree).map fun leaf => (Role.ofCategory leaf.1.category, leaf.2)).foldlM
      placeAfter mode = some next :=
  foldlM_acts (fun _ _ _ member _ _ leads => placeAfter_bodies member (of_placeAfter leads).2)
    derivation leads

theorem afterAll_tokens {mode next : Mode}
    (after : mode.after (Role.ofSymbol (SyntaxTree.symbol tree)) = some next) :
    ((SyntaxTree.tokens tree).map fun token => Role.ofCategory token.category).foldlM Mode.after
      mode = some next :=
  foldlM_tokens (fun _ _ member _ _ => afterAll_bodies member) derivation after

theorem innerAll_tokens
    (inner : (Role.ofSymbol (SyntaxTree.symbol tree)).inner depth = some next) :
    Role.innerAll depth ((SyntaxTree.tokens tree).map fun token =>
      Role.ofCategory token.category) = some next :=
  @foldlM_tokens tree Nat (fun depth role => role.inner depth)
    (fun _ _ member _ _ effect => innerAll_bodies member effect) derivation _ _ inner

theorem listedAll_tokens {typed next : Bool}
    (listed : (Role.ofSymbol (SyntaxTree.symbol tree)).listed typed = some next) :
    ((SyntaxTree.tokens tree).map fun token => Role.ofCategory token.category).foldlM
      (fun typed role => role.listed typed) typed = some next :=
  @foldlM_tokens tree Bool (fun typed role => role.listed typed)
    (fun _ _ member _ _ effect => listedAll_bodies member effect) derivation _ _ listed

end

end ThreeAddress.Language

import ThreeAddress.Failure
import ThreeAddress.Grammar.Basic
import ThreeAddress.Grammar.CategorySet

/-!
FIRST and FOLLOW.

A pass visits the non-terminals, and from each of them those that its set depends on.
It takes little or nothing from sets that are still being made, so what it leaves behind may lack members.
Sweeps over the productions then add members until a sweep adds nothing.
A sweep that changes something adds a member to some set, so their number is bounded in advance.
-/

namespace ThreeAddress

/-- Repeats a step until it changes nothing, at most the given number of times. -/
def stabilize {σ : Type} [BEq σ] (step : σ → σ) : Nat → σ → σ
  | 0, state => state
  | budget + 1, state =>
    -- A step that changes nothing would change nothing for ever after.
    let next := step state
    if next == state then state else stabilize step budget next

/--
Productions by non-terminal: one for each category that it can begin with, and one that can vanish.

Of several entries for one key the first in the list counts, which was entered last.
-/
structure ProductionIndex where
  beginning : List ((Text × Category) × Production) := []
  vanishing : List (Text × Production) := []
deriving DecidableEq, Repr

namespace ProductionIndex

/-- Enters a production for a category. Only for the empty text an earlier production stays. -/
def enter (index : ProductionIndex) (production : Production) (category : Category) :
    ProductionIndex :=
  if category = Category.epsilon then
    if (index.vanishing.lookup production.lhs).isSome then index
    else { index with vanishing := (production.lhs, production) :: index.vanishing }
  else { index with beginning := ((production.lhs, category), production) :: index.beginning }

def enterAll (index : ProductionIndex) (production : Production) (categories : CategorySet) :
    ProductionIndex :=
  categories.foldl (fun index category => index.enter production category) index

end ProductionIndex

/-- How far a pass has come with a non-terminal. -/
inductive Mark where
  | unvisited
  | inProgress
  | finished
deriving DecidableEq, Repr

/-- Where a pass over a grammar stands: its marks, the sets, and the index of productions. -/
structure Pass where
  marks : List (Text × Mark) := []
  sets : CategorySets
  index : ProductionIndex := {}
deriving DecidableEq, Repr

/-- How a pass visits a non-terminal. -/
abbrev Visit := Text → Pass → Except Failure Pass

namespace Pass

def markOf (pass : Pass) (name : Text) : Mark :=
  (pass.marks.lookup name).getD .unvisited

def mark (pass : Pass) (name : Text) (mark : Mark) : Pass :=
  { pass with marks := (name, mark) :: pass.marks }

def add (pass : Pass) (name : Text) (members : CategorySet) : Pass :=
  { pass with sets := pass.sets.add name members }

/-- Adds what a production begins with to the set of its non-terminal, and enters the production for it. -/
def begins (pass : Pass) (production : Production) (categories : CategorySet) : Pass :=
  { pass.add production.lhs categories with
    index := pass.index.enterAll production categories }

/--
Visits a non-terminal, which is in progress meanwhile.

The work for it may visit others. The first argument bounds how many visits there are inside each other.
-/
def visit (work : Visit → Visit) : Nat → Visit
  | 0, _, _ => .error .endless
  | depth + 1, name, pass => do
    -- The set that the work adds to has to be there.
    let _ ← (pass.sets.find name).mapError .fault
    let pass ← work (visit work depth) name (pass.mark name .inProgress)
    return pass.mark name .finished

/-- Visits a non-terminal that was not visited before. -/
def reach (visit : Visit) (name : Text) (pass : Pass) : Except Failure Pass :=
  if pass.markOf name = .unvisited then visit name pass else return pass

def visitAll (work : Visit → Visit) (names : List Text) (pass : Pass) : Except Failure Pass :=
  names.foldlM (fun pass name => pass.reach (visit work names.length) name) pass

/-- The set of a non-terminal, once it has been visited. -/
def setOf (visit : Visit) (name : Text) (pass : Pass) : Except Failure (CategorySet × Pass) := do
  let pass ← pass.reach visit name
  return (← (pass.sets.find name).mapError .fault, pass)

end Pass

namespace Grammar

/-- What a run of symbols can begin with, given that knowledge of single non-terminals. -/
def firstOf (first : CategorySets) : List Symbol → CategorySet
  | [] => [Category.epsilon]
  | symbol :: rest =>
    match symbol with
    | .terminal _ category =>
      if symbol.isEpsilon then firstOf first rest else [category]
    | .nonterminal name =>
      let set := first.get name
      -- What stands behind shows only through a symbol that can vanish.
      if set.hasEpsilon then CategorySet.union set.proper (firstOf first rest) else set

/-- What a run of symbols can begin with. Reaching a name without a set is a fault. -/
def findFirst (first : CategorySets) : List Symbol → Except Fault CategorySet
  | [] => .ok [Category.epsilon]
  | symbol :: rest =>
    match symbol with
    | .terminal _ category =>
      if symbol.isEpsilon then findFirst first rest else .ok [category]
    | .nonterminal name => do
      let set ← first.find name
      if set.hasEpsilon then return CategorySet.union set.proper (← findFirst first rest)
      else return set

/-- The productions of one non-terminal after the other. -/
def grouped (grammar : Grammar) : List Production :=
  grammar.nonterminals.flatMap grammar.productionsOf

/-- How many members all sets together can hold, the reserved categories included. -/
def sweepBudget (grammar : Grammar) : Nat :=
  grammar.nonterminals.length * (grammar.terminals.length + 2) + 1

/-- A pass that has not begun: all sets are empty. -/
def blank (grammar : Grammar) : Pass :=
  { sets := CategorySets.start grammar.nonterminals }

/-- Goes over a right-hand side as long as all symbols may vanish. -/
def scanFirst (visit : Visit) (production : Production) :
    List Symbol → Pass → Except Failure Pass
  | [], pass => return pass.add production.lhs [Category.epsilon]
  | symbol :: rest, pass =>
    match symbol with
    | .terminal _ category =>
      if symbol.isEpsilon then scanFirst visit production rest pass
      else return pass.begins production [category]
    | .nonterminal name =>
      -- A set in progress is not complete, and is left to the sweeps.
      if pass.markOf name = .inProgress then return pass
      else do
        let (set, pass) ← pass.setOf visit name
        let pass := pass.begins production set.proper
        if set.hasEpsilon then scanFirst visit production rest pass else return pass

def firstPass (grammar : Grammar) : Except Failure Pass :=
  Pass.visitAll
    (fun visit name pass =>
      (grammar.productionsOf name).foldlM
        (fun pass production => scanFirst visit production production.rhs pass) pass)
    grammar.nonterminals grammar.blank

def firstSweep (grammar : Grammar) (first : CategorySets) : CategorySets :=
  grammar.productions.foldl
    (fun sets production => sets.add production.lhs (firstOf sets production.rhs)) first

/-- What the pass for FIRST leaves behind. It fails for no grammar of finished rules. -/
def begun (grammar : Grammar) : Pass :=
  grammar.firstPass.toOption.getD grammar.blank

def first (grammar : Grammar) : CategorySets :=
  stabilize grammar.firstSweep grammar.sweepBudget grammar.begun.sets

/-- The index that is left behind by the pass for FIRST, overwritten by what the final sets say. -/
def productionIndex (grammar : Grammar) (first : CategorySets) : ProductionIndex :=
  grammar.grouped.foldl
    (fun index production => index.enterAll production (firstOf first production.rhs))
    grammar.begun.index

/-- Adds what stands behind a non-terminal in a right-hand side, and what follows the owner where that can vanish. -/
def scanFollow (first : CategorySets) (visit : Visit) (name owner : Text) :
    List Symbol → Pass → Except Failure Pass
  | [], pass => return pass
  | .terminal .. :: rest, pass => scanFollow first visit name owner rest pass
  | .nonterminal other :: rest, pass =>
    if other = name then do
      let next ← (findFirst first rest).mapError .fault
      let pass := pass.add name next.proper
      if next.hasEpsilon && owner != name then do
        -- The set of an owner in progress is taken as far as it goes.
        let (outer, pass) ← pass.setOf visit owner
        scanFollow first visit name owner rest (pass.add name outer.proper)
      else scanFollow first visit name owner rest pass
    else scanFollow first visit name owner rest pass

/-- The pass for FOLLOW. The end of input follows the start symbol. -/
def followPass (grammar : Grammar) (first : CategorySets) : Except Failure Pass :=
  Pass.visitAll
    (fun visit name pass =>
      grammar.grouped.foldlM
        (fun pass production => scanFollow first visit name production.lhs production.rhs pass) pass)
    grammar.nonterminals (grammar.blank.add grammar.start [Category.endOfInput])

def followOf (first : CategorySets) (lhs : Text) : CategorySets → List Symbol → CategorySets
  | follow, [] => follow
  | follow, .terminal .. :: rest => followOf first lhs follow rest
  | follow, .nonterminal name :: rest =>
    -- Where all that stands behind can vanish, whatever follows the whole right-hand side follows here.
    let next := firstOf first rest
    let behind := if next.hasEpsilon then CategorySet.union next.proper (follow.get lhs)
      else next.proper
    followOf first lhs (follow.add name behind) rest

def followSweep (grammar : Grammar) (first follow : CategorySets) : CategorySets :=
  grammar.productions.foldl
    (fun sets production => followOf first production.lhs sets production.rhs) follow

/-- The FOLLOW sets of a grammar, for which the pass does not fail either. -/
def follow (grammar : Grammar) (first : CategorySets) : CategorySets :=
  stabilize (grammar.followSweep first) grammar.sweepBudget
    ((grammar.followPass first).toOption.getD grammar.blank).sets

end Grammar

/-- A grammar with its FIRST and FOLLOW sets, and its productions by what they begin with. -/
structure Analysis where
  grammar : Grammar
  first : CategorySets
  follow : CategorySets
  index : ProductionIndex
deriving DecidableEq, Repr

namespace Analysis

def ofGrammar (grammar : Grammar) : Analysis :=
  let first := grammar.first
  { grammar, first, follow := grammar.follow first, index := grammar.productionIndex first }

/-- Analyses a grammar that may be missing. -/
def ofGrammar? : Option Grammar → Except Fault Analysis
  | some grammar => .ok (ofGrammar grammar)
  | none => .error .missingGrammar

def first? (analysis : Analysis) (name : Text) : Option CategorySet :=
  analysis.first.lookup name

def follow? (analysis : Analysis) (name : Text) : Option CategorySet :=
  analysis.follow.lookup name

/-- Whether a non-terminal derives the empty text. -/
def derivesEpsilon (analysis : Analysis) (name : Text) : Bool :=
  (analysis.first.get name).hasEpsilon

/-- The production of a non-terminal that begins with a category. -/
def firstProduction? (analysis : Analysis) (name : Text) (category : Category) :
    Option Production :=
  analysis.index.beginning.lookup (name, category)

/-- The production of a non-terminal that derives the empty text. -/
def epsilonProduction? (analysis : Analysis) (name : Text) : Option Production :=
  analysis.index.vanishing.lookup name

/-- What a run of symbols can begin with. Reaching a name without rules is a fault. -/
def firstOfSequence (analysis : Analysis) (symbols : List Symbol) : Except Fault CategorySet :=
  Grammar.findFirst analysis.first symbols

end Analysis

end ThreeAddress

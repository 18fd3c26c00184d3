import GrammarAnalysis.Grammar.Reader
import GrammarAnalysis.Normal.Pipeline
import GrammarAnalysis.Predictive.Parser
import GrammarAnalysis.Regex.Elimination
import GrammarAnalysis.Regular.Automaton
import GrammarAnalysis.ShiftReduce.Parser

/-!
# Analysing a grammar

An analysis collects the results of all enabled stages for one grammar: its
FIRST and FOLLOW sets, its parsing tables, the automaton and the expression of a
regular grammar, and its normal forms.
-/

namespace GrammarAnalysis

/-- The stages that are run.  All of them are enabled by default. -/
structure Stages where
  ll1 : Bool := true
  slr1 : Bool := true
  lr1 : Bool := true
  lalr1 : Bool := true
  /-- Building the automaton of a regular grammar; it is classified in any case. -/
  regular : Bool := true
  normalize : Bool := true
deriving DecidableEq, Repr

/-- The reason why an analysis failed. -/
inductive AnalysisError where
  | grammar (error : GrammarError)
  | automaton (error : AutomatonError)
  /-- The grammar cannot be augmented: its start symbol is not declared, or it is
  the reserved one and lacks the reserved rule. -/
  | notAugmentable
deriving DecidableEq, Repr

namespace AnalysisError

/-- The message shown to the user. -/
def message : AnalysisError → String
  | grammar error => "malformed grammar: " ++ error.message
  | automaton error => error.message
  | notAugmentable => "the grammar cannot be augmented"

/-- The message of the fault behind this one, if there is one. -/
def cause? : AnalysisError → Option String
  | grammar error => some error.message
  | automaton _ | notAugmentable => none

end AnalysisError

/-- The automaton and the expression of a regular grammar. -/
structure RegularAnalysis where
  automaton : RegularAutomaton
  /-- There is no expression if the language is empty. -/
  regex : Option Regex

/-- The results of the enabled stages. -/
structure Analysis where
  grammar : Grammar
  firstSets : FirstSets
  followSets : FollowSets
  ll1 : Option PredictiveTable
  slr1 : Option ParseTable
  lr1Automaton : Option CanonicalAutomaton
  lr1 : Option ParseTable
  lalr1 : Option ParseTable
  isRegular : Bool
  regular : Option RegularAnalysis
  /-- The normal forms, if they are wanted; there are none if numbers run out on the way. -/
  normalization : Option (Option Normalization)

namespace Analysis

/-- The result of a stage, if it is enabled. -/
def whenEnabled {α : Type} (enabled : Bool) (stage : Except AnalysisError α) :
    Except AnalysisError (Option α) :=
  if enabled then stage.map some else .ok none

/-- The augmented grammar of the shift-reduce stages. -/
def augment (g : Grammar) : Except AnalysisError Grammar :=
  match g.withAcceptRule? with
  | some augmented => .ok augmented
  | none => .error .notAugmentable

/-- The automaton and the expression of a regular grammar. -/
def analyzeRegular (g : Grammar) : Except AnalysisError RegularAnalysis :=
  match g.regularAutomaton with
  | .ok automaton => .ok ⟨automaton, automaton.dfa.toRegex?⟩
  | .error error => .error (.automaton error)

/-- Runs the enabled stages on a grammar. -/
def ofGrammar (g : Grammar) (stages : Stages) : Except AnalysisError Analysis := do
  let first := FirstSets.ofGrammar g
  let follow := FollowSets.ofGrammar g first
  let slr1 ← whenEnabled stages.slr1 ((augment g).map ParseTable.slr1)
  let canonical ← whenEnabled (stages.lr1 || stages.lalr1) <|
    (augment g).map fun augmented => (augmented, augmented.canonicalAutomaton)
  let regular ← whenEnabled (stages.regular && g.isRegular) (analyzeRegular g)
  return {
    grammar := g
    firstSets := first
    followSets := follow
    ll1 := if stages.ll1 then some (.ofSets g first follow) else none
    slr1 := slr1
    lr1Automaton := canonical.map Prod.snd
    lr1 := if stages.lr1 then canonical.map fun (g, automaton) => .lr1 g automaton else none
    lalr1 := if stages.lalr1 then canonical.map fun (g, automaton) => .lalr1 g automaton else none
    isRegular := g.isRegular
    regular := regular
    normalization := if stages.normalize then some (Normalization.ofGrammar? g) else none }

/-- Reads a grammar and runs the enabled stages on it. -/
def ofText (text : String) (stages : Stages) : Except AnalysisError Analysis :=
  match Grammar.ofText text with
  | .ok g => ofGrammar g stages
  | .error error => .error (.grammar error)

end Analysis

end GrammarAnalysis

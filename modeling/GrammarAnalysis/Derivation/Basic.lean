import GrammarAnalysis.Grammar.Printer

/-!
# Derivations

A parser answers with the rules of a derivation, in the order in which they are
applied to the start symbol.  Predictive parsers expand the leftmost
nonterminal first, shift-reduce parsers the rightmost one.
-/

namespace GrammarAnalysis

/-- Which nonterminal of a sentential form is expanded first. -/
inductive Handedness where
  | leftmost
  | rightmost
deriving DecidableEq, Repr

namespace Handedness

/-- The list in the order of expansion: reversed for rightmost derivations. -/
def arrange {α : Type} : Handedness → List α → List α
  | leftmost, xs => xs
  | rightmost, xs => xs.reverse

theorem arrange_arrange {α : Type} (order : Handedness) (xs : List α) :
    order.arrange (order.arrange xs) = xs := by
  cases order <;> simp [arrange]

end Handedness

/-- The rules applied in turn to derive a word from the start symbol. -/
structure Derivation where
  order : Handedness
  rules : List RuleId
deriving DecidableEq, Repr

namespace Derivation

/-- The rules, separated by semicolons. -/
def text? (g : Grammar) (derivation : Derivation) : Option String :=
  (derivation.rules.mapM g.ruleTextOf?).map ("; ".intercalate ·)

end Derivation

/-- The answer of a parser to a word. -/
inductive ParseOutcome where
  | derived (derivation : Derivation)
  | notRecognized
deriving DecidableEq, Repr

namespace ParseOutcome

/-- The derivation of a recognized word. -/
def derivation? : ParseOutcome → Option Derivation
  | derived derivation => some derivation
  | notRecognized => none

/-- Whether the word has been recognized. -/
def isRecognized : ParseOutcome → Bool
  | derived _ => true
  | notRecognized => false

end ParseOutcome

/-- What a parser does next: go on with another configuration, or answer. -/
inductive StepResult (Configuration : Type) where
  | next (configuration : Configuration)
  | stop (outcome : ParseOutcome)

/-- Runs a parser for at most `bound` steps.  There is no answer if the parser
has not stopped by then. -/
def runSteps {Configuration : Type} (step : Configuration → StepResult Configuration) :
    Nat → Configuration → Option ParseOutcome
  | 0, _ => none
  | bound + 1, configuration =>
    match step configuration with
    | .next configuration => runSteps step bound configuration
    | .stop outcome => some outcome

/-- More steps do not change an answer. -/
theorem runSteps_mono {Configuration : Type} {step : Configuration → StepResult Configuration}
    {bound larger : Nat} (h : bound ≤ larger) {configuration : Configuration}
    {outcome : ParseOutcome} (answer : runSteps step bound configuration = some outcome) :
    runSteps step larger configuration = some outcome := by
  induction bound generalizing larger configuration with
  | zero => simp [runSteps] at answer
  | succ bound ih =>
    obtain ⟨more, rfl⟩ : ∃ more, larger = more + 1 := ⟨larger - 1, by omega⟩
    unfold runSteps at answer ⊢
    split at answer
    · exact ih (by omega) answer
    · exact answer

end GrammarAnalysis

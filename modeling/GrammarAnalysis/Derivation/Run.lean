import GrammarAnalysis.Derivation.Basic

/-!
# Runs of a parser

A run goes from configuration to configuration until the parser answers.  The
bounded runs of `runSteps` find an answer exactly if there is a run that ends
with it (`exists_runSteps_eq_some_iff`).
-/

namespace GrammarAnalysis

variable {Configuration : Type}

/-- Whether the parser comes from one configuration to another. -/
inductive Reaches (step : Configuration → StepResult Configuration) :
    Configuration → Configuration → Prop
  | refl (configuration : Configuration) : Reaches step configuration configuration
  | next {first second last : Configuration} (here : step first = .next second)
      (rest : Reaches step second last) : Reaches step first last

theorem Reaches.trans {step : Configuration → StepResult Configuration}
    {first second last : Configuration} (h : Reaches step first second)
    (h' : Reaches step second last) : Reaches step first last := by
  induction h with
  | refl => exact h'
  | next here _ ih => exact .next here (ih h')

/-- A bounded run that answers ends in a configuration with this answer. -/
theorem reaches_of_runSteps {step : Configuration → StepResult Configuration} {bound : Nat}
    {first : Configuration} {outcome : ParseOutcome}
    (h : runSteps step bound first = some outcome) :
    ∃ last, Reaches step first last ∧ step last = .stop outcome := by
  induction bound generalizing first with
  | zero => simp [runSteps] at h
  | succ bound ih =>
    rw [runSteps] at h
    split at h
    · next second here =>
      obtain ⟨last, reached, answer⟩ := ih h
      exact ⟨last, .next here reached, answer⟩
    · next answer here =>
      exact ⟨first, .refl _, by rw [here, Option.some.inj h]⟩

/-- A run that ends with an answer is found by some bounded run. -/
theorem exists_runSteps_of_reaches {step : Configuration → StepResult Configuration}
    {first last : Configuration} {outcome : ParseOutcome} (h : Reaches step first last)
    (answer : step last = .stop outcome) : ∃ bound, runSteps step bound first = some outcome := by
  induction h with
  | refl => exact ⟨1, by rw [runSteps, answer]⟩
  | next here _ ih =>
    obtain ⟨bound, found⟩ := ih answer
    exact ⟨bound + 1, by simp only [runSteps, here, found]⟩

theorem exists_runSteps_eq_some_iff {step : Configuration → StepResult Configuration}
    {first : Configuration} {outcome : ParseOutcome} :
    (∃ bound, runSteps step bound first = some outcome) ↔
      ∃ last, Reaches step first last ∧ step last = .stop outcome :=
  ⟨fun ⟨_, found⟩ => reaches_of_runSteps found,
    fun ⟨_, reached, answer⟩ => exists_runSteps_of_reaches reached answer⟩

end GrammarAnalysis

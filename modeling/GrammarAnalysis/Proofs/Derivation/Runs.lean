import GrammarAnalysis.Derivation.Run

/-!
# Runs with a limit

How many steps a run takes, and within how many it answers.  A parser makes the
same steps whenever it runs, so all its answers are the same, and it answers
where it starts if it answers where it gets to.
-/

namespace GrammarAnalysis

variable {Configuration : Type} {step : Configuration → StepResult Configuration}

/-- Whether the parser comes from one configuration to another in so many steps or fewer. -/
inductive ReachesWithin (step : Configuration → StepResult Configuration) :
    Nat → Configuration → Configuration → Prop
  | refl (bound : Nat) (configuration : Configuration) :
      ReachesWithin step bound configuration configuration
  | next {bound : Nat} {first second last : Configuration} (here : step first = .next second)
      (rest : ReachesWithin step bound second last) : ReachesWithin step (bound + 1) first last

/-- Whether the parser answers in so many steps or fewer. -/
def StopsWithin (step : Configuration → StepResult Configuration) (bound : Nat)
    (configuration : Configuration) : Prop :=
  ∃ outcome, runSteps step bound configuration = some outcome

theorem ReachesWithin.mono {bound larger : Nat} {first last : Configuration}
    (h : ReachesWithin step bound first last) (hle : bound ≤ larger) :
    ReachesWithin step larger first last := by
  induction h generalizing larger with
  | refl => exact .refl _ _
  | next here _ ih =>
      obtain ⟨more, rfl⟩ := Nat.exists_eq_add_of_le' (Nat.one_le_of_lt hle)
      exact .next here (ih (Nat.le_of_succ_le_succ hle))

theorem ReachesWithin.trans {bound more : Nat} {first second last : Configuration}
    (h : ReachesWithin step bound first second) (h' : ReachesWithin step more second last) :
    ReachesWithin step (bound + more) first last := by
  induction h with
  | refl bound => exact h'.mono (Nat.le_add_left _ _)
  | next here _ ih =>
      rw [Nat.add_right_comm]
      exact .next here (ih h')

/-- Runs that answer give the same answer. -/
theorem runSteps_unique {bound bound' : Nat} {configuration : Configuration}
    {outcome outcome' : ParseOutcome} (h : runSteps step bound configuration = some outcome)
    (h' : runSteps step bound' configuration = some outcome') : outcome = outcome' := by
  have hlonger := runSteps_mono (Nat.le_max_left bound bound') h
  have hlonger' := runSteps_mono (Nat.le_max_right bound bound') h'
  rw [hlonger] at hlonger'
  exact Option.some.inj hlonger'

theorem StopsWithin.mono {bound larger : Nat} {configuration : Configuration}
    (h : StopsWithin step bound configuration) (hle : bound ≤ larger) :
    StopsWithin step larger configuration := by
  obtain ⟨outcome, hrun⟩ := h
  exact ⟨outcome, runSteps_mono hle hrun⟩

theorem StopsWithin.of_stop {configuration : Configuration} {outcome : ParseOutcome}
    (h : step configuration = .stop outcome) (bound : Nat) :
    StopsWithin step (bound + 1) configuration :=
  ⟨outcome, by rw [runSteps, h]⟩

theorem ReachesWithin.stopsWithin {bound more : Nat} {first last : Configuration}
    (h : ReachesWithin step bound first last) (hlast : StopsWithin step more last) :
    StopsWithin step (bound + more) first := by
  induction h with
  | refl bound => exact hlast.mono (Nat.le_add_left _ _)
  | next here _ ih =>
      obtain ⟨outcome, hrun⟩ := ih hlast
      refine ⟨outcome, ?_⟩
      rw [Nat.add_right_comm, runSteps, here]
      exact hrun

end GrammarAnalysis

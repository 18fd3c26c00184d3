/-!
# Iterating a step until nothing changes

Every least solution of this library (FIRST and FOLLOW sets, nullable and
generating nonterminals, closures of item sets) is reached by repeating a
step that only ever adds.  The number of repetitions is bounded by the number
of things that can be added, which each caller computes from its input.
-/

namespace GrammarAnalysis

/-- Repeats `step` until it changes nothing, at most `bound` times. -/
def stabilize {α : Type} [DecidableEq α] (step : α → α) : Nat → α → α
  | 0, a => a
  | bound + 1, a => if step a = a then a else stabilize step bound (step a)

theorem stabilize_of_fixed {α : Type} [DecidableEq α] {step : α → α} {a : α}
    (h : step a = a) (bound : Nat) : stabilize step bound a = a := by
  cases bound <;> simp [stabilize, h]

theorem stabilize_succ {α : Type} [DecidableEq α] (step : α → α) (bound : Nat) (a : α) :
    stabilize step (bound + 1) a = stabilize step bound (step a) := by
  by_cases h : step a = a
  · rw [h, stabilize_of_fixed h, stabilize_of_fixed h]
  · simp [stabilize, h]

/-- What the step keeps, the iteration keeps. -/
theorem stabilize_induction {α : Type} [DecidableEq α] {step : α → α} {P : α → Prop}
    (keeps : ∀ a, P a → P (step a)) (bound : Nat) {a : α} (h : P a) :
    P (stabilize step bound a) := by
  induction bound generalizing a with
  | zero => exact h
  | succ bound ih =>
    rw [stabilize_succ]
    exact ih (keeps a h)

/-- If every change raises a measure that the bound is not below, the result is a fixed point. -/
theorem step_stabilize {α : Type} [DecidableEq α] {step : α → α} {measure : α → Nat}
    {P : α → Prop} (keeps : ∀ a, P a → P (step a)) {limit : Nat}
    (grows : ∀ a, P a → step a ≠ a → measure a < measure (step a))
    (limited : ∀ a, P a → measure a ≤ limit) (bound : Nat) {a : α} (h : P a)
    (enough : limit < measure a + bound) :
    step (stabilize step bound a) = stabilize step bound a := by
  induction bound generalizing a with
  | zero =>
    have := limited a h
    omega
  | succ bound ih =>
    by_cases hs : step a = a
    · rw [stabilize_of_fixed hs, hs]
    · rw [stabilize_succ]
      have := grows a h hs
      exact ih (keeps a h) (by omega)

end GrammarAnalysis

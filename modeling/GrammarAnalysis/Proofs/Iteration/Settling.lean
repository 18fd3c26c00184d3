import GrammarAnalysis.Proofs.Iteration.Growth
import GrammarAnalysis.Proofs.Iteration.Reports

/-!
# Loops that end when nothing has grown

A fixed point can also be computed by a loop that repeats a pass until the pass
reports that nothing has grown.  The report may ignore some changes: a pass that
only adds empty sets reports no growth.  The loop therefore can end earlier than
`stabilize`, but not with another result, if a pass that reports no growth is the
last one to change anything.
-/

namespace GrammarAnalysis

variable {α : Type}

/-- Repeating the pass until it reports no change ends with the second value. -/
inductive Settles (pass : α → α × Bool) : α → α → Prop
  | last {a b : α} (idle : pass a = (b, false)) : Settles pass a b
  | again {a b c : α} (busy : pass a = (b, true)) (rest : Settles pass b c) : Settles pass a c

section Stabilize

variable [DecidableEq α] {pass : α → α × Bool} {step : α → α} {limit bound : Nat} {a : α}

/-- The loop ends, and it ends with the fixed point, if every change raises a limited measure and
a pass that reports no growth is followed by passes that change nothing. -/
theorem settles_stabilize (P : α → Prop) (size measure : α → Nat)
    (hpass : ∀ a, P a → (pass a).1 = step a) (htells : ∀ a, P a → TellsGrowth size a (pass a))
    (hkeeps : ∀ a, P a → P (step a))
    (hgrows : ∀ a, P a → step a = a ∨ measure a < measure (step a))
    (hidle : ∀ a, P a → size (step a) = size a → step (step a) = step a)
    (hlimit : ∀ a, P a → measure a ≤ limit) (ha : P a) (henough : limit < measure a + bound) :
    Settles pass a (stabilize step bound a) := by
  induction bound generalizing a with
  | zero =>
      have := hlimit a ha
      omega
  | succ bound ih =>
      obtain ⟨hle, hreport⟩ := htells a ha
      rw [hpass a ha] at hle hreport
      rw [stabilize_succ]
      cases hchanged : (pass a).2 with
      | false =>
          have hsame : size (step a) = size a := by
            have hnot : ¬ size a < size (step a) := by simp [← hreport, hchanged]
            omega
          rw [stabilize_of_fixed (hidle a ha hsame)]
          exact .last (Prod.ext (hpass a ha) hchanged)
      | true =>
          have hlarger := hreport.mp hchanged
          have hlt : measure a < measure (step a) := by
            refine (hgrows a ha).resolve_left fun hsame => ?_
            rw [hsame] at hlarger
            exact absurd hlarger (Nat.lt_irrefl _)
          exact .again (Prod.ext (hpass a ha) hchanged) (ih (hkeeps a ha) (by omega))

/-- The loop ends with the fixed point if every change is growth and raises a limited measure. -/
theorem settles_stabilize_of_eq_self (P : α → Prop) (size measure : α → Nat)
    (hpass : ∀ a, P a → (pass a).1 = step a) (htells : ∀ a, P a → TellsGrowth size a (pass a))
    (hkeeps : ∀ a, P a → P (step a))
    (hgrows : ∀ a, P a → step a = a ∨ measure a < measure (step a))
    (hidle : ∀ a, P a → size (step a) = size a → step a = a)
    (hlimit : ∀ a, P a → measure a ≤ limit) (ha : P a) (henough : limit < measure a + bound) :
    Settles pass a (stabilize step bound a) := by
  refine settles_stabilize P size measure hpass htells hkeeps hgrows (fun a ha hsame => ?_) hlimit
    ha henough
  rw [hidle a ha hsame, hidle a ha hsame]

end Stabilize

end GrammarAnalysis

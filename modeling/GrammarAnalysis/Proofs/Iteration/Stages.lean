import GrammarAnalysis.Proofs.Iteration.Exploration

/-!
# Stages of a growing predicate

A predicate that grows from stage to stage, and stops for good once a stage adds
nothing, is complete after as many stages as there are values it can hold of.
-/

namespace GrammarAnalysis

variable {κ : Type} {stage : Nat → κ → Prop}

theorem stage_le (hgrows : ∀ n k, stage n k → stage (n + 1) k) {n m : Nat} (h : n ≤ m) {k : κ}
    (hk : stage n k) : stage m k := by
  induction h with
  | refl => exact hk
  | step _ ih => exact hgrows _ k ih

/-- A stage that adds nothing is the last one. -/
theorem stage_stable (hstable : ∀ n, (∀ k, stage (n + 1) k → stage n k) →
      ∀ k, stage (n + 2) k → stage (n + 1) k)
    {n : Nat} (hn : ∀ k, stage (n + 1) k → stage n k) (d : Nat) {k : κ}
    (hk : stage (n + d) k) : stage n k := by
  have hall : ∀ d k, stage (n + d + 1) k → stage (n + d) k := by
    intro d
    induction d with
    | zero => exact hn
    | succ d ih => exact hstable (n + d) ih
  induction d with
  | zero => exact hk
  | succ d ih => exact ih (hall d k hk)

/-- Up to some stage either one of the stages adds nothing, or each adds a value. -/
theorem exists_stable_or_values (hgrows : ∀ n k, stage n k → stage (n + 1) k) (n : Nat) :
    (∃ m < n, ∀ k, stage (m + 1) k → stage m k) ∨
      ∃ ks : List κ, ks.Nodup ∧ ks.length = n ∧ ∀ k ∈ ks, stage n k := by
  induction n with
  | zero => exact Or.inr ⟨[], List.nodup_nil, rfl, by simp⟩
  | succ n ih =>
      rcases ih with ⟨m, hm, hstop⟩ | ⟨ks, hnodup, hlength, hks⟩
      · exact Or.inl ⟨m, by omega, hstop⟩
      · by_cases hstop : ∀ k, stage (n + 1) k → stage n k
        · exact Or.inl ⟨n, Nat.lt_succ_self n, hstop⟩
        · right
          obtain ⟨k, hk⟩ := not_forall.mp hstop
          obtain ⟨hnew, hold⟩ := Classical.not_imp.mp hk
          refine ⟨k :: ks, ?_, by rw [List.length_cons, hlength], ?_⟩
          · exact List.nodup_cons.mpr ⟨fun hmem => hold (hks k hmem), hnodup⟩
          · intro j hj
            rcases List.mem_cons.mp hj with rfl | hj
            · exact hnew
            · exact hgrows n j (hks j hj)

/-- With no more than `bound` values, stage `bound` is the last one. -/
theorem stage_bound (stage : Nat → κ → Prop) (hgrows : ∀ n k, stage n k → stage (n + 1) k)
    (hstable : ∀ n, (∀ k, stage (n + 1) k → stage n k) → ∀ k, stage (n + 2) k → stage (n + 1) k)
    {bound : Nat} (hbound : AtMost bound fun k => ∃ n, stage n k) {n : Nat} {k : κ}
    (hk : stage n k) : stage bound k := by
  rcases exists_stable_or_values hgrows (bound + 1) with
    ⟨m, hm, hstop⟩ | ⟨ks, hnodup, hlength, hks⟩
  · have hmk : stage m k := by
      refine stage_stable hstable hstop n (stage_le hgrows (Nat.le_add_left n m) hk)
    exact stage_le hgrows (Nat.le_of_lt_succ hm) hmk
  · have hle := hbound ks hnodup fun j hj => ⟨bound + 1, hks j hj⟩
    omega

end GrammarAnalysis

import GrammarAnalysis.Iteration.Fixpoint

/-!
# Steps that grow

A step grows if it either changes nothing or raises a measure.  A pass that
applies growing steps one after the other grows as well, and it changes nothing
only if none of them does: a fixed point of the pass is a fixed point of every
single step.
-/

namespace GrammarAnalysis

variable {α β : Type}

theorem foldl_eq_self {step : α → β → α} {bs : List β} {a : α}
    (h : ∀ b ∈ bs, step a b = a) : bs.foldl step a = a := by
  induction bs with
  | nil => rfl
  | cons b rest ih =>
      rw [List.foldl_cons, h b (by simp)]
      exact ih fun c hc => h c (List.mem_cons_of_mem _ hc)

/-- Passes whose steps grow either consist of idle steps or raise the measure. -/
theorem foldl_idle_or_lt {measure : α → Nat} {step : α → β → α} {bs : List β}
    (h : ∀ a, ∀ b ∈ bs, step a b = a ∨ measure a < measure (step a b)) (a : α) :
    (∀ b ∈ bs, step a b = a) ∨ measure a < measure (bs.foldl step a) := by
  induction bs generalizing a with
  | nil =>
      left
      simp
  | cons b rest ih =>
      have hrest := ih (fun a c hc => h a c (List.mem_cons_of_mem _ hc)) (step a b)
      rw [List.foldl_cons]
      rcases h a b (by simp) with hb | hb
      · rw [hb] at hrest ⊢
        rcases hrest with hidle | hlt
        · left
          intro c hc
          rcases List.mem_cons.mp hc with rfl | hc
          · exact hb
          · exact hidle c hc
        · exact Or.inr hlt
      · right
        rcases hrest with hidle | hlt
        · rw [foldl_eq_self hidle]
          exact hb
        · omega

/-- A pass of growing steps is idle only if every step is. -/
theorem idle_of_foldl_eq_self {measure : α → Nat} {step : α → β → α} {bs : List β} {a : α}
    (h : ∀ a, ∀ b ∈ bs, step a b = a ∨ measure a < measure (step a b))
    (hfixed : bs.foldl step a = a) : ∀ b ∈ bs, step a b = a := by
  rcases foldl_idle_or_lt h a with hidle | hlt
  · exact hidle
  · rw [hfixed] at hlt
    exact absurd hlt (Nat.lt_irrefl _)

/-- A pass of growing steps grows. -/
theorem foldl_eq_self_or_lt {measure : α → Nat} {step : α → β → α} {bs : List β}
    (h : ∀ a, ∀ b ∈ bs, step a b = a ∨ measure a < measure (step a b)) (a : α) :
    bs.foldl step a = a ∨ measure a < measure (bs.foldl step a) :=
  (foldl_idle_or_lt h a).imp_left foldl_eq_self

/-- A growing step with a limited measure comes to a fixed point. -/
theorem step_stabilize_eq [DecidableEq α] {step : α → α} (P : α → Prop) (measure : α → Nat)
    {limit bound : Nat} {a : α} (hkeeps : ∀ a, P a → P (step a))
    (hgrows : ∀ a, P a → step a = a ∨ measure a < measure (step a))
    (hlimit : ∀ a, P a → measure a ≤ limit) (ha : P a) (henough : limit < measure a + bound) :
    step (stabilize step bound a) = stabilize step bound a :=
  step_stabilize hkeeps (fun a ha hne => (hgrows a ha).resolve_left hne) hlimit bound ha henough

/-- What every step of a pass keeps, the pass keeps. -/
theorem foldl_keeps {P : α → Prop} {step : α → β → α} {bs : List β}
    (h : ∀ a, ∀ b ∈ bs, P a → P (step a b)) {a : α} (ha : P a) : P (bs.foldl step a) := by
  induction bs generalizing a with
  | nil => exact ha
  | cons b rest ih =>
      rw [List.foldl_cons]
      exact ih (fun a c hc => h a c (List.mem_cons_of_mem _ hc)) (h a b (by simp) ha)

/-- What one step of a pass establishes, and all of them keep, holds after the pass. -/
theorem foldl_establishes {P I : α → Prop} {step : α → β → α} {bs : List β} {b : β}
    (hb : b ∈ bs) (hinv : ∀ a, ∀ c ∈ bs, I a → I (step a c)) (hmakes : ∀ a, I a → P (step a b))
    (hkeeps : ∀ a, ∀ c ∈ bs, I a → P a → P (step a c)) {a : α} (ha : I a) :
    P (bs.foldl step a) := by
  obtain ⟨before, after, rfl⟩ := List.append_of_mem hb
  rw [List.foldl_append, List.foldl_cons]
  have hfront : I (before.foldl step a) :=
    foldl_keeps (fun a c hc => hinv a c (List.mem_append_left _ hc)) ha
  have hhere : I (step (before.foldl step a) b) ∧ P (step (before.foldl step a) b) :=
    ⟨hinv _ b hb hfront, hmakes _ hfront⟩
  refine (foldl_keeps (P := fun a => I a ∧ P a) (fun a c hc h => ?_) hhere).2
  have hc' : c ∈ before ++ b :: after := List.mem_append_right _ (List.mem_cons_of_mem _ hc)
  exact ⟨hinv a c hc' h.1, hkeeps a c hc' h.1 h.2⟩

end GrammarAnalysis

import GrammarAnalysis.Proofs.Normal.Edits
import GrammarAnalysis.Proofs.Normal.Pipeline

/-!
# Passes in any order

The passes may be applied in any order and any number of times.  Every one of them
keeps a grammar plain, so that all that holds of plain grammars holds along any
sequence, and every one of them is a sequence of rebuilt grammars, which says what
becomes of the symbols.

Only the last pass, which does the work of three others first, can give a fresh
nonterminal the number of a symbol of its input: of one that it has dropped.
-/

namespace GrammarAnalysis

/-- The passes that change the form of a grammar. -/
inductive Pass where
  | leftRecursion
  | commonPrefix
  | uselessSymbols
  | epsilonRules
  | unitRules
  | almostNormalForm
deriving DecidableEq, Repr

namespace Grammar

variable {g g' : Grammar} {n : NonterminalId} {name : String}

/-- The grammar after a pass. -/
def apply (g : Grammar) : Pass → Grammar
  | .leftRecursion => g.withoutLeftRecursion
  | .commonPrefix => g.withoutCommonPrefix
  | .uselessSymbols => g.withoutUselessSymbols
  | .epsilonRules => g.withoutEpsilonRules
  | .unitRules => g.withoutUnitRules
  | .almostNormalForm => g.almostNormalForm.1

/-- The grammar after some passes, one after the other. -/
def applyAll (g : Grammar) (passes : List Pass) : Grammar := passes.foldl apply g

/-- The grammar after a pass, if there are enough numbers. -/
def perform? (g : Grammar) : Pass → Option Grammar
  | .leftRecursion => g.withoutLeftRecursion?
  | .commonPrefix => g.withoutCommonPrefix?
  | .uselessSymbols => g.withoutUselessSymbols?
  | .epsilonRules => g.withoutEpsilonRules?
  | .unitRules => g.withoutUnitRules?
  | .almostNormalForm => g.almostNormalForm?.map Prod.fst

/-- The grammar after some passes, if there are enough numbers for each of them. -/
def performAll? (g : Grammar) (passes : List Pass) : Option Grammar := passes.foldlM perform? g

/-! ## Plain grammars -/

theorem isPlain_apply (hg : g.IsPlain) (pass : Pass) : (g.apply pass).IsPlain := by
  cases pass with
  | leftRecursion => exact (generated_withoutLeftRecursion hg).1
  | commonPrefix => exact (generated_withoutCommonPrefix hg).1
  | uselessSymbols => exact (mem_ruleSet_withoutUselessSymbols hg).1
  | epsilonRules => exact (mem_ruleSet_withoutEpsilonRules hg).1
  | unitRules => exact (mem_ruleSet_withoutUnitRules hg).1
  | almostNormalForm =>
      have hcore := isPlain_normalCore hg
      rw [apply, almostNormalForm_eq, restoreEmptyWord]
      split
      · exact (ruleSet_withEmptyStart hcore).1
      · exact hcore

theorem isPlain_applyAll (hg : g.IsPlain) (passes : List Pass) : (g.applyAll passes).IsPlain :=
  foldl_keeps (P := IsPlain) (fun _ pass _ h => isPlain_apply h pass) hg

/-! ## Passes that come to an end -/

theorem eq_and_inRange_of_ite {ideal : Grammar}
    (h : (if ideal.InRange then some ideal else none) = some g') : g' = ideal ∧ g'.InRange := by
  obtain ⟨hrange, hsome⟩ := Option.ite_none_right_eq_some.mp h
  obtain rfl := Option.some.inj hsome
  exact ⟨rfl, hrange⟩

/-- A pass that comes to an end makes the grammar that it would make if numbers never ran out,
and leaves all numbers below the last one. -/
theorem eq_apply_of_perform? {pass : Pass} (hg : g.IsPlain) (hrange : g.InRange)
    (h : g.perform? pass = some g') : g' = g.apply pass ∧ g'.InRange := by
  cases pass with
  | leftRecursion => exact eq_and_inRange_of_ite (g.withoutLeftRecursion?_eq ▸ h)
  | commonPrefix => exact eq_and_inRange_of_ite (g.withoutCommonPrefix?_eq ▸ h)
  | uselessSymbols =>
      exact ⟨(withoutUselessSymbols?_eq_some_iff.mp h).2.symm, inRange_of_withoutUselessSymbols? h⟩
  | epsilonRules => exact eq_and_inRange_of_ite (g.withoutEpsilonRules?_eq ▸ h)
  | unitRules => exact eq_and_inRange_of_ite (g.withoutUnitRules?_eq ▸ h)
  | almostNormalForm =>
      obtain ⟨result, hresult, rfl⟩ := Option.map_eq_some_iff.mp h
      rw [almostNormalForm?_eq hg hrange] at hresult
      obtain ⟨hstages, hsome⟩ := Option.ite_none_right_eq_some.mp hresult
      obtain rfl := Option.some.inj hsome
      exact ⟨rfl, hstages _ (by simp [normalStages])⟩

/-- What holds of a pass holds of several. -/
theorem eq_applyAll_of_performAll? {passes : List Pass} (hg : g.IsPlain) (hrange : g.InRange)
    (h : g.performAll? passes = some g') :
    g' = g.applyAll passes ∧ g'.IsPlain ∧ g'.InRange := by
  induction passes generalizing g with
  | nil =>
      obtain rfl : g = g' := Option.some.inj h
      exact ⟨rfl, hg, hrange⟩
  | cons pass passes ih =>
      rw [performAll?, List.foldlM_cons] at h
      obtain ⟨g₁, hfirst, hrest⟩ := Option.bind_eq_some_iff.mp h
      obtain ⟨rfl, hrange₁⟩ := eq_apply_of_perform? hg hrange hfirst
      exact ih (isPlain_apply hg pass) hrange₁ hrest

/-- Passes over a grammar that is read from text leave it plain, and its numbers below the
last one. -/
theorem isPlain_of_performAll? {text : String} {passes : List Pass} (hread : ofText text = .ok g)
    (h : g.performAll? passes = some g') : g'.IsPlain ∧ g'.InRange :=
  (eq_applyAll_of_performAll? (isPlain_of_ofText hread) (inRange_of_ofText hread) h).2

/-- What is computed after passes from a text is computed from the grammar that they make. -/
theorem exists_of_performAll? {text : String} {passes : List Pass} {β : Type}
    {f : Grammar → Option β} {b : β}
    (h : ((ofText text).toOption.bind fun g => (g.performAll? passes).bind f) = some b) :
    ∃ g g', ofText text = .ok g ∧ g.performAll? passes = some g' ∧ f g' = some b := by
  obtain ⟨g, hread, h⟩ := exists_of_bind_toOption h
  obtain ⟨g', hperformed, h⟩ := Option.bind_eq_some_iff.mp h
  exact ⟨g, g', hread, hperformed, h⟩

/-! ## Sequences of rebuilt grammars -/

/-- Whether the second grammar is rebuilt from the first one in one or more stages. -/
def IsRebuiltInStages : Grammar → Grammar → Prop := Relation.TransGen IsRebuilt

theorem isEdited_apply {pass : Pass} (g : Grammar) (hpass : pass ≠ .almostNormalForm) :
    g.IsEdited (g.apply pass) := by
  cases pass with
  | leftRecursion => exact isEdited_withoutLeftRecursion g
  | commonPrefix => exact isEdited_withoutCommonPrefix g
  | uselessSymbols => exact isEdited_withoutUselessSymbols g
  | epsilonRules => exact isEdited_withoutEpsilonRules g
  | unitRules => exact isEdited_withoutUnitRules g
  | almostNormalForm => contradiction

theorem isRebuiltInStages_normalCore (g : Grammar) : g.IsRebuiltInStages g.normalCore := by
  have huseful := Relation.TransGen.single (isEdited_withoutUselessSymbols g).1
  have hfree := huseful.tail (isEdited_withoutEpsilonRules g.withoutUselessSymbols).1
  exact hfree.tail (isEdited_withoutUnitRules _).1

theorem isRebuiltInStages_apply (g : Grammar) (pass : Pass) :
    g.IsRebuiltInStages (g.apply pass) := by
  by_cases hpass : pass = .almostNormalForm
  · have hcore := isRebuiltInStages_normalCore g
    rw [hpass, apply, almostNormalForm_eq, restoreEmptyWord]
    split
    · exact hcore.tail (isRebuilt_withEmptyStart g.normalCore)
    · exact hcore
  · exact .single (isEdited_apply g hpass).1

namespace IsRebuiltInStages

theorem get?_terminals (h : g.IsRebuiltInStages g') {t : TerminalId}
    (ht : g'.terminals.get? t = some name) : g.terminals.get? t = some name := by
  induction h with
  | single hstage => exact hstage.get?_terminals ht
  | tail _ hstage ih => exact ih (hstage.get?_terminals ht)

theorem start_declared (h : g.IsRebuiltInStages g') (hstart : g.start ∈ g.nonterminals.keys) :
    g'.start ∈ g'.nonterminals.keys := by
  induction h with
  | single hstage => exact hstage.start_declared hstart
  | tail _ hstage ih => exact hstage.start_declared ih

theorem acceptRule_not_mem (h : g.IsRebuiltInStages g') : acceptRule ∉ g'.rules.keys := by
  cases h with
  | single hstage => exact hstage.acceptRule_not_mem
  | tail _ hstage => exact hstage.acceptRule_not_mem

end IsRebuiltInStages

/-! ## Nonterminals -/

/-- Removing useless symbols adds no symbols. -/
theorem get?_nonterminals_withoutUselessSymbols
    (hn : g.withoutUselessSymbols.nonterminals.get? n = some name) :
    g.nonterminals.get? n = some name := by
  have hcopied := Definition.nonterminals_copyRules g.toDefinition g
  obtain ⟨keep, hkeep⟩ := g.exists_retain_useful g.toDefinition
  rw [withoutUselessSymbols] at hn
  simp only [rebuild, hkeep, Definition.finish, Definition.retain, OrderedMap.get?_filterKeys,
    hcopied] at hn
  split at hn
  · exact hn
  · contradiction

theorem nonterminals_withoutEpsilonRules (g : Grammar) :
    g.withoutEpsilonRules.nonterminals = g.nonterminals :=
  Definition.nonterminals_foldl_ensureRules g.toDefinition Rule.head
    (epsilonFreeBodies g.nullable) _

theorem nonterminals_withoutUnitRules (g : Grammar) :
    g.withoutUnitRules.nonterminals = g.nonterminals :=
  Definition.nonterminals_foldl_ensureRules g.toDefinition id (g.unitFreeBodies g.unitReach) _

theorem nonterminals_normalCore (g : Grammar) :
    g.normalCore.nonterminals = g.withoutUselessSymbols.nonterminals := by
  rw [normalCore, nonterminals_withoutUnitRules, nonterminals_withoutEpsilonRules]

/-- The grammar to whose symbols a pass adds fresh ones.  The last pass drops useless symbols
first. -/
def trimmedFor (g : Grammar) : Pass → Grammar
  | .almostNormalForm => g.withoutUselessSymbols
  | _ => g

/-- After a pass a nonterminal has its old name, or a number above all in use where the fresh
ones are added. -/
theorem get?_nonterminals_apply {pass : Pass}
    (hn : (g.apply pass).nonterminals.get? n = some name) :
    g.nonterminals.get? n = some name ∨
      ∀ m ∈ (g.trimmedFor pass).nonterminals.keys, m < n := by
  by_cases hpass : pass = .almostNormalForm
  · subst hpass
    have hcore : g.normalCore.nonterminals.get? n = some name →
        g.nonterminals.get? n = some name := by
      rw [nonterminals_normalCore]
      exact get?_nonterminals_withoutUselessSymbols
    rw [apply, almostNormalForm_eq, restoreEmptyWord] at hn
    split at hn
    · have hcases := (isRebuilt_withEmptyStart g.normalCore).get?_nonterminals hn
      rw [nonterminals_normalCore g] at hcases
      exact hcases.imp_left get?_nonterminals_withoutUselessSymbols
    · exact Or.inl (hcore hn)
  · have hcases := (isEdited_apply g hpass).1.get?_nonterminals hn
    rwa [trimmedFor.eq_2 g pass hpass]

end Grammar

end GrammarAnalysis

import GrammarAnalysis.Normal.Pipeline
import GrammarAnalysis.Proofs.Grammar.Rebuild
import GrammarAnalysis.Proofs.Iteration.Growth

/-!
# The edits that passes make

Whatever a pass is for, it edits a definition in three ways only: it adds rules, it
adds fresh nonterminals, and it drops symbols.  What these edits keep is therefore
kept by every pass, for every grammar, plain or not: the names of the symbols that
stay, the numbers of the fresh ones above those in use, the declared start symbol,
and that no rule gets the reserved number.  Only the last step of the normal form
chooses another start symbol.
-/

namespace GrammarAnalysis

namespace Definition

variable {d d' d'' : Definition} {n : NonterminalId}

/-- Whether the second definition comes from the first one by adding rules and fresh
nonterminals. -/
inductive Adds : Definition → Definition → Prop
  | refl (d : Definition) : Adds d d
  | ensureRule {d d' : Definition} (h : Adds d d') (head : NonterminalId)
      (body : List Symbol) : Adds d (d'.ensureRule head body).2
  | freshNonterminal {d d' : Definition} (h : Adds d d') (base : String) :
      Adds d (d'.freshNonterminal base).2

/-- Whether the second definition comes from the first one by edits. -/
inductive Edits : Definition → Definition → Prop
  | refl (d : Definition) : Edits d d
  | ensureRule {d d' : Definition} (h : Edits d d') (head : NonterminalId)
      (body : List Symbol) : Edits d (d'.ensureRule head body).2
  | freshNonterminal {d d' : Definition} (h : Edits d d') (base : String) :
      Edits d (d'.freshNonterminal base).2
  | retain {d d' : Definition} (h : Edits d d') (keep : Symbol → Bool) : Edits d (d'.retain keep)

/-! ## Sequences of edits -/

theorem Edits.trans (h : d.Edits d') (h' : d'.Edits d'') : d.Edits d'' := by
  induction h' with
  | refl => exact h
  | ensureRule _ head body ih => exact ih.ensureRule head body
  | freshNonterminal _ base ih => exact ih.freshNonterminal base
  | retain _ keep ih => exact ih.retain keep

namespace Adds

theorem edits (h : d.Adds d') : d.Edits d' := by
  induction h with
  | refl => exact .refl _
  | ensureRule _ head body ih => exact ih.ensureRule head body
  | freshNonterminal _ base ih => exact ih.freshNonterminal base

theorem trans (h : d.Adds d') (h' : d'.Adds d'') : d.Adds d'' := by
  induction h' with
  | refl => exact h
  | ensureRule _ head body ih => exact ih.ensureRule head body
  | freshNonterminal _ base ih => exact ih.freshNonterminal base

theorem foldl {β : Type} {step : Definition → β → Definition} {bs : List β}
    (h : ∀ d : Definition, ∀ b ∈ bs, d.Adds (step d b)) : d.Adds (bs.foldl step d) :=
  foldl_keeps (P := fun d' => d.Adds d') (fun d' b hb hd => hd.trans (h d' b hb)) (.refl d)

theorem ensureRules (d : Definition) (head : NonterminalId) (bodies : List (List Symbol)) :
    d.Adds (d.ensureRules head bodies) :=
  foldl fun d body _ => (Adds.refl d).ensureRule head body

theorem copyRules (d : Definition) (g : Grammar) : d.Adds (d.copyRules g) :=
  foldl fun d rule _ => (Adds.refl d).ensureRule rule.head rule.body

theorem addWithoutRecursion (g : Grammar) (d : Definition) (n : NonterminalId) (name : String) :
    d.Adds (g.addWithoutRecursion d n name) := by
  rw [Grammar.addWithoutRecursion]
  split
  · exact ensureRules d n _
  · exact (((Adds.refl d).freshNonterminal name).trans (ensureRules _ n _)).trans
      (ensureRules _ _ _)

theorem addGroup (head : NonterminalId) (d : Definition)
    (group : Option Symbol × List (List Symbol)) : d.Adds (d.addGroup head group).1 := by
  rw [addGroup.eq_def]
  split
  · exact ((Adds.refl d).freshNonterminal _).ensureRule head _
  · exact ensureRules d head _

theorem addGroups (head : NonterminalId) (d : Definition)
    (groups : List (Option Symbol × List (List Symbol))) :
    d.Adds (d.addGroups head groups).1 := by
  induction groups generalizing d with
  | nil => exact .refl d
  | cons group groups ih => exact (addGroup head d group).trans (ih _)

theorem factor (bound : Nat) (queue : List PendingBodies) (d : Definition) :
    d.Adds (factor bound queue d) := by
  induction bound generalizing queue d with
  | zero => exact .refl d
  | succ bound ih =>
      cases queue with
      | nil => exact .refl d
      | cons pending queue => exact (addGroups pending.head d _).trans (ih _ _)

end Adds

/-! ## Symbols -/

theorem ensureRule_cases (d : Definition) (head : NonterminalId) (body : List Symbol) :
    (d.ensureRule head body).2 = d ∨
      (d.ensureRule head body).2 = (d.appendRule ⟨head, body⟩).2 := by
  rw [ensureRule]
  split
  · exact Or.inl rfl
  · exact Or.inr rfl

@[simp] theorem terminals_ensureRule (d : Definition) (head : NonterminalId)
    (body : List Symbol) : (d.ensureRule head body).2.terminals = d.terminals := by
  rcases d.ensureRule_cases head body with h | h <;> simp [h, appendRule]

@[simp] theorem nonterminals_ensureRule (d : Definition) (head : NonterminalId)
    (body : List Symbol) : (d.ensureRule head body).2.nonterminals = d.nonterminals := by
  rcases d.ensureRule_cases head body with h | h <;> simp [h, appendRule]

@[simp] theorem nextNonterminal_ensureRule (d : Definition) (head : NonterminalId)
    (body : List Symbol) : (d.ensureRule head body).2.nextNonterminal = d.nextNonterminal := by
  rcases d.ensureRule_cases head body with h | h <;> simp [h, appendRule]

@[simp] theorem start_ensureRule (d : Definition) (head : NonterminalId) (body : List Symbol) :
    (d.ensureRule head body).2.start = d.start := by
  rcases d.ensureRule_cases head body with h | h <;> simp [h, appendRule]

theorem nonterminals_ensureRules (d : Definition) (head : NonterminalId)
    (bodies : List (List Symbol)) : (d.ensureRules head bodies).nonterminals = d.nonterminals :=
  foldl_keeps (P := fun d' : Definition => d'.nonterminals = d.nonterminals)
    (fun d' body _ h => (d'.nonterminals_ensureRule head body).trans h) rfl

theorem nonterminals_foldl_ensureRules {β : Type} (d : Definition) (head : β → NonterminalId)
    (bodies : β → List (List Symbol)) (entries : List β) :
    (entries.foldl (fun d entry => d.ensureRules (head entry) (bodies entry)) d).nonterminals =
      d.nonterminals :=
  foldl_keeps (P := fun d' : Definition => d'.nonterminals = d.nonterminals)
    (fun d' entry _ h => (d'.nonterminals_ensureRules (head entry) (bodies entry)).trans h) rfl

theorem nonterminals_copyRules (d : Definition) (g : Grammar) :
    (d.copyRules g).nonterminals = d.nonterminals :=
  foldl_keeps (P := fun d' : Definition => d'.nonterminals = d.nonterminals)
    (fun d' rule _ h => (d'.nonterminals_ensureRule rule.head rule.body).trans h) rfl

/-- Edits add no terminals and change no names of terminals. -/
theorem Edits.get?_terminals (h : d.Edits d') {t : TerminalId} {name : String}
    (ht : d'.terminals.get? t = some name) : d.terminals.get? t = some name := by
  induction h with
  | refl => exact ht
  | ensureRule _ head body ih => exact ih (by simpa using ht)
  | freshNonterminal _ _ ih => exact ih ht
  | retain _ keep ih =>
      rw [Definition.retain, OrderedMap.get?_filterKeys] at ht
      split at ht
      · exact ih ht
      · contradiction

theorem Edits.nextNonterminal_le (h : d.Edits d') : d.nextNonterminal ≤ d'.nextNonterminal := by
  induction h with
  | refl => exact Nat.le_refl _
  | ensureRule _ head body ih => simpa using ih
  | freshNonterminal _ _ ih => exact Nat.le_succ_of_le ih
  | retain _ _ ih => exact ih

/-- A nonterminal is declared with its old name, or its number is not below the next one. -/
theorem Edits.get?_nonterminals (h : d.Edits d') {name : String}
    (hn : d'.nonterminals.get? n = some name) :
    d.nonterminals.get? n = some name ∨ d.nextNonterminal ≤ n := by
  induction h with
  | refl => exact Or.inl hn
  | ensureRule _ head body ih => exact ih (by simpa using hn)
  | retain _ keep ih =>
      rw [Definition.retain, OrderedMap.get?_filterKeys] at hn
      split at hn
      · exact ih hn
      · contradiction
  | freshNonterminal hedits base ih =>
      simp only [Definition.freshNonterminal, addNonterminal, OrderedMap.get?_insert] at hn
      split at hn
      · next hnew =>
        rw [hnew]
        exact Or.inr hedits.nextNonterminal_le
      · exact ih hn

/-! ## The start symbol -/

/-- Edits do not choose the start symbol. -/
theorem Edits.start_eq (h : d.Edits d') : d'.start = d.start := by
  induction h with
  | refl => rfl
  | ensureRule _ head body ih => simpa using ih
  | freshNonterminal _ _ ih => exact ih
  | retain _ _ ih => exact ih

theorem mem_keys_freshNonterminal {base : String} :
    n ∈ (d.freshNonterminal base).2.nonterminals.keys ↔
      n = d.nextNonterminal ∨ n ∈ d.nonterminals.keys :=
  OrderedMap.mem_keys_insert

/-- Edits do not drop the start symbol. -/
theorem Edits.start_declared (h : d.Edits d') (hstart : d.start = some n)
    (hn : n ∈ d.nonterminals.keys) : n ∈ d'.nonterminals.keys := by
  induction h with
  | refl => exact hn
  | ensureRule _ head body ih => simpa using ih
  | freshNonterminal _ base ih => exact mem_keys_freshNonterminal.mpr (Or.inr ih)
  | retain hedits keep ih =>
      refine mem_keys_filterKeys.mpr ⟨ih, ?_⟩
      simp [hedits.start_eq, hstart]

/-! ## Rule numbers -/

/-- Whether the reserved number is not among those of the rules, and is not the next one. -/
structure SparesAcceptRule (d : Definition) : Prop where
  rules : acceptRule ∉ d.rules.keys
  nextRule : d.nextRule ≠ acceptRule

theorem SparesAcceptRule.ensureRule (hd : d.SparesAcceptRule) (head : NonterminalId)
    (body : List Symbol) : (d.ensureRule head body).2.SparesAcceptRule := by
  rcases d.ensureRule_cases head body with h | h
  · rw [h]
    exact hd
  · rw [h]
    refine ⟨?_, Nat.succ_ne_zero _⟩
    simp only [appendRule, OrderedMap.insert, OrderedMap.keys_upsert]
    split
    · exact hd.rules
    · rw [List.mem_append, List.mem_singleton, not_or]
      exact ⟨hd.rules, fun h => hd.nextRule h.symm⟩

theorem Edits.sparesAcceptRule (h : d.Edits d') (hd : d.SparesAcceptRule) :
    d'.SparesAcceptRule := by
  induction h with
  | refl => exact hd
  | ensureRule _ head body ih => exact ih.ensureRule head body
  | freshNonterminal _ _ ih => exact ⟨ih.rules, ih.nextRule⟩
  | retain _ _ ih =>
      refine ⟨fun hmem => ih.rules ?_, ih.nextRule⟩
      exact (List.filter_sublist.map Prod.fst).subset hmem

end Definition

namespace Grammar

variable {g g' : Grammar} {n : NonterminalId}

/-! ## Rebuilt grammars -/

/-- Whether the second grammar is rebuilt from the symbols of the first one by edits, with the
same start symbol or another declared one. -/
def IsRebuilt (g g' : Grammar) : Prop :=
  ∃ d, g.toDefinition.Edits d ∧ g' = d.finish g'.start ∧
    (g'.start ≠ g.start → g'.start ∈ g'.nonterminals.keys)

/-- Whether the second grammar is rebuilt from the first one with the same start symbol. -/
def IsEdited (g g' : Grammar) : Prop := g.IsRebuilt g' ∧ g'.start = g.start

namespace IsRebuilt

theorem get?_terminals (h : g.IsRebuilt g') {t : TerminalId} {name : String}
    (ht : g'.terminals.get? t = some name) : g.terminals.get? t = some name := by
  obtain ⟨d, hedits, heq, -⟩ := h
  rw [heq] at ht
  exact hedits.get?_terminals ht

/-- A nonterminal of a rebuilt grammar has its old name, or a number above all in use. -/
theorem get?_nonterminals (h : g.IsRebuilt g') {name : String}
    (hn : g'.nonterminals.get? n = some name) :
    g.nonterminals.get? n = some name ∨ ∀ m ∈ g.nonterminals.keys, m < n := by
  obtain ⟨d, hedits, heq, -⟩ := h
  rw [heq] at hn
  rcases hedits.get?_nonterminals hn with hold | hnew
  · exact Or.inl hold
  · exact Or.inr fun m hm => Nat.lt_of_lt_of_le (lt_nextNumber hm) hnew

theorem start_declared (h : g.IsRebuilt g') (hstart : g.start ∈ g.nonterminals.keys) :
    g'.start ∈ g'.nonterminals.keys := by
  obtain ⟨d, hedits, heq, hchosen⟩ := h
  by_cases hsame : g'.start = g.start
  · rw [hsame, heq]
    exact hedits.start_declared rfl hstart
  · exact hchosen hsame

/-- No rule of a rebuilt grammar has the reserved number. -/
theorem acceptRule_not_mem (h : g.IsRebuilt g') : acceptRule ∉ g'.rules.keys := by
  obtain ⟨d, hedits, heq, -⟩ := h
  rw [heq]
  exact (hedits.sparesAcceptRule ⟨List.not_mem_nil, Nat.one_ne_zero⟩).rules

end IsRebuilt

/-! ## The passes -/

theorem isEdited_rebuild {build : Definition → Definition}
    (h : g.toDefinition.Edits (build g.toDefinition)) : g.IsEdited (g.rebuild build) := by
  have hstart : (g.rebuild build).start = g.start := by
    rw [rebuild, h.start_eq]
    rfl
  exact ⟨⟨build g.toDefinition, h, rfl, fun hne => absurd hstart hne⟩, hstart⟩

theorem adds_recursionFree (g : Grammar) (d : Definition) : d.Adds (g.addRecursionFree d) :=
  .foldl fun d entry _ => .addWithoutRecursion g d entry.1 entry.2

theorem adds_factored (g : Grammar) (d : Definition) : d.Adds (g.addFactored d) :=
  .factor _ _ d

theorem adds_epsilonFree (g : Grammar) (d : Definition) : d.Adds (g.addEpsilonFree d) :=
  .foldl fun d rule _ => .ensureRules d rule.head _

theorem adds_unitFree (g : Grammar) (d : Definition) : d.Adds (g.addUnitFree d) :=
  .foldl fun d n _ => .ensureRules d n _

theorem isEdited_withoutLeftRecursion (g : Grammar) : g.IsEdited g.withoutLeftRecursion :=
  isEdited_rebuild (g.adds_recursionFree _).edits

theorem isEdited_withoutCommonPrefix (g : Grammar) : g.IsEdited g.withoutCommonPrefix :=
  isEdited_rebuild (g.adds_factored _).edits

theorem exists_retain_useful (g : Grammar) (d : Definition) :
    ∃ keep, g.addUseful d = (d.copyRules g).retain keep := by
  rw [addUseful]
  exact ⟨_, rfl⟩

theorem edits_useful (g : Grammar) (d : Definition) : d.Edits (g.addUseful d) := by
  obtain ⟨keep, hkeep⟩ := g.exists_retain_useful d
  rw [hkeep]
  exact (Definition.Adds.copyRules d g).edits.retain keep

theorem isEdited_withoutUselessSymbols (g : Grammar) : g.IsEdited g.withoutUselessSymbols :=
  isEdited_rebuild (g.edits_useful _)

theorem isEdited_withoutEpsilonRules (g : Grammar) : g.IsEdited g.withoutEpsilonRules :=
  isEdited_rebuild (g.adds_epsilonFree _).edits

theorem isEdited_withoutUnitRules (g : Grammar) : g.IsEdited g.withoutUnitRules :=
  isEdited_rebuild (g.adds_unitFree _).edits

/-- The rules of the grammar and those of a fresh start symbol are added before it is chosen. -/
theorem exists_adds_emptyStart (g : Grammar) (d : Definition) :
    ∃ d' n, d.Adds d' ∧ g.addEmptyStart d = d'.setStart n :=
  ⟨_, _, ((Definition.Adds.copyRules d g).freshNonterminal _).trans (.ensureRules _ _ _), rfl⟩

/-- The fresh start symbol is declared. -/
theorem isRebuilt_withEmptyStart (g : Grammar) : g.IsRebuilt g.withEmptyStart := by
  have hcopied := (Definition.Adds.copyRules g.toDefinition g).edits
  have hfresh := hcopied.freshNonterminal
    (((g.toDefinition.copyRules g).nonterminals.get? g.start).getD "")
  refine ⟨_, hfresh.trans (Definition.Adds.ensureRules _ _ _).edits, rfl, fun _ => ?_⟩
  have hnonterminals := Definition.nonterminals_ensureRules
  simp only [withEmptyStart, rebuild, addEmptyStart, Definition.setStart, Definition.finish,
    hnonterminals]
  exact Definition.mem_keys_freshNonterminal.mpr (Or.inl rfl)

end Grammar

end GrammarAnalysis

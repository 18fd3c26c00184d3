import GrammarAnalysis.Normal.Useless
import GrammarAnalysis.Proofs.Derivation.Completion
import GrammarAnalysis.Proofs.Grammar.Rebuild
import GrammarAnalysis.Proofs.Iteration.Exploration
import GrammarAnalysis.Proofs.Lookahead.Nullable

/-!
# Removing useless symbols keeps the language

A rule that takes part in deriving a word from a reached nonterminal has
generating symbols only, so these are reached as well and the rule is kept.

Nothing else is kept.  The rules along which a symbol is reached have useful
symbols only, so they are still there, and each of their symbols still derives a
word: the symbol occurs in a derivation of a word in what is left.
-/

namespace GrammarAnalysis.Grammar

open Reading

variable {g : Grammar} {n : NonterminalId} {s : Symbol}

/-! ## Reached symbols -/

/-- Whether a symbol is the start symbol or occurs in a body. -/
def IsListed (g : Grammar) (s : Symbol) : Prop :=
  s ∈ .nonterminal g.start :: g.rules.values.flatMap Rule.body

theorem mem_usefulSuccessors_iff {generating : List NonterminalId} :
    s ∈ g.usefulSuccessors generating (.nonterminal n) ↔
      ∃ body, ⟨n, body⟩ ∈ g.ruleSet ∧ (∀ s ∈ body, counts true generating s = true) ∧ s ∈ body := by
  simp only [usefulSuccessors, List.mem_flatten, List.mem_filter, mem_bodiesOf, List.all_eq_true,
    and_assoc]

theorem isListed_of_mem_body {rule : Rule} (hrule : rule ∈ g.ruleSet) (hs : s ∈ rule.body) :
    g.IsListed s :=
  List.mem_cons_of_mem _ (List.mem_flatMap.mpr ⟨rule, hrule, hs⟩)

theorem atMost_isListed (g : Grammar) : AtMost (g.bodySize + 2) g.IsListed := by
  apply atMost_of_mem fun _ hs => hs
  rw [List.length_cons, length_flatMap_eq_totalBy]
  exact Nat.le_succ _

theorem mem_reachableSymbols_iff (hstart : g.start ∈ g.generating) :
    s ∈ g.reachableSymbols g.generating ↔ Relation.ReflTransGen
      (fun k j => j ∈ g.usefulSuccessors g.generating k) (.nonterminal g.start) s := by
  rw [reachableSymbols, if_pos (List.contains_iff_mem.mpr hstart), reachable,
    mem_explore_iff (P := g.IsListed) _ _ (atMost_isListed g)]
  · simp only [List.mem_singleton, exists_eq_left]
    rfl
  · simp [IsListed]
  · intro k _ j hj
    cases k with
    | terminal t => exact absurd hj List.not_mem_nil
    | nonterminal m =>
        obtain ⟨body, hrule, -, hs⟩ := mem_usefulSuccessors_iff.mp hj
        exact isListed_of_mem_body hrule hs

theorem start_mem_reachableSymbols (hstart : g.start ∈ g.generating) :
    .nonterminal g.start ∈ g.reachableSymbols g.generating :=
  (mem_reachableSymbols_iff hstart).mpr Relation.ReflTransGen.refl

/-- The symbols of a body are reached if its head is and all of them are generating. -/
theorem mem_reachableSymbols_of_rule (hstart : g.start ∈ g.generating) {rule : Rule}
    (hrule : rule ∈ g.ruleSet)
    (hhead : .nonterminal rule.head ∈ g.reachableSymbols g.generating)
    (hbody : ∀ s ∈ rule.body, counts true g.generating s = true) :
    ∀ s ∈ rule.body, s ∈ g.reachableSymbols g.generating := fun _ hs =>
  (mem_reachableSymbols_iff hstart).mpr (((mem_reachableSymbols_iff hstart).mp hhead).tail
    (mem_usefulSuccessors_iff.mpr ⟨rule.body, hrule, hbody, hs⟩))

/-! ## The pass -/

/-- Whether a symbol is reached and generating. -/
def IsUseful (g : Grammar) (s : Symbol) : Bool :=
  (g.reachableSymbols g.generating).contains s && counts true g.generating s

theorem isUseful_iff :
    g.IsUseful s = true ↔
      s ∈ g.reachableSymbols g.generating ∧ counts true g.generating s = true := by
  rw [IsUseful, Bool.and_eq_true, List.contains_iff_mem]

/-- The rules over useful symbols are among those that are kept. -/
theorem mem_ruleSet_withoutUselessSymbols (hg : g.IsPlain) :
    g.withoutUselessSymbols.IsPlain ∧ g.withoutUselessSymbols.start = g.start ∧
      g.withoutUselessSymbols.ruleSet ⊆ g.ruleSet ∧
      ∀ rule ∈ g.ruleSet, g.IsUseful (.nonterminal rule.head) = true →
        (∀ s ∈ rule.body, g.IsUseful s = true) → rule ∈ g.withoutUselessSymbols.ruleSet := by
  have hcopy := Definition.continues_copyRules hg.toDefinition hg.admits
  have hset : (g.toDefinition.copyRules g).ruleSet = g.ruleSet := by
    rw [hcopy.ruleSet_eq, ruleSet_toDefinition, Set.empty_union]
  have hrebuild : g.withoutUselessSymbols =
      g.rebuild fun d => (d.copyRules g).retain g.IsUseful := rfl
  rw [hrebuild]
  obtain ⟨hplain, hstart, hrules⟩ := isPlain_rebuild
    (fun d => (d.copyRules g).retain g.IsUseful) (hcopy.isPlain.retain g.IsUseful) hcopy.start_eq
  refine ⟨hplain, hstart, fun rule hrule => ?_, fun rule hrule hhead hbody => ?_⟩
  · rw [hrules] at hrule
    rw [← hset]
    exact (Definition.mem_ruleSet_retain.mp hrule).1
  · rw [hrules]
    refine (Definition.mem_ruleSet_retain_iff hcopy.isPlain).mpr
      ⟨by rwa [hset], Or.inr hhead, fun s hs => ?_⟩
    have hs := hbody s hs
    cases s with
    | terminal t => exact Or.inr hs
    | nonterminal m => exact Or.inr hs

/-- Reached nonterminals derive the same words without the useless symbols. -/
theorem generated_le_withoutUselessSymbols (hg : g.IsPlain) (hstart : g.start ∈ g.generating)
    (hn : .nonterminal n ∈ g.reachableSymbols g.generating) :
    g.generated n ≤ g.withoutUselessSymbols.generated n := by
  obtain ⟨-, -, -, hkept⟩ := mem_ruleSet_withoutUselessSymbols hg
  let L : Reading := fun n => {word | word ∈ least g.ruleSet n ∧
    (.nonterminal n ∈ g.reachableSymbols g.generating →
      word ∈ least g.withoutUselessSymbols.ruleSet n)}
  have hL : L.Solves g.ruleSet := by
    intro rule hrule word hword
    have hall : word ∈ (least g.ruleSet).ofForm rule.body :=
      ofForm_le (fun _ _ _ h => h.1) hword
    have hhead := solves_least g.ruleSet rule hrule hall
    refine ⟨hhead, fun hreached => ?_⟩
    have hgenerating : ∀ s ∈ rule.body, counts true g.generating s = true := by
      intro s hs
      obtain ⟨part, hpart⟩ := exists_mem_ofForm_iff.mp ⟨word, hall⟩ s hs
      cases s with
      | terminal t => rfl
      | nonterminal m =>
          exact List.contains_iff_mem.mpr
            (mem_generating_iff.mpr ⟨part, generates_iff_mem_least.mpr hpart⟩)
    have hbody := mem_reachableSymbols_of_rule hstart hrule hreached hgenerating
    have huseful : g.IsUseful (.nonterminal rule.head) = true :=
      isUseful_iff.mpr ⟨hreached, List.contains_iff_mem.mpr
        (mem_generating_iff.mpr ⟨word, generates_iff_mem_least.mpr hhead⟩)⟩
    have hrule' := hkept rule hrule huseful fun s hs =>
      isUseful_iff.mpr ⟨hbody s hs, hgenerating s hs⟩
    exact solves_least _ rule hrule' (ofForm_le (fun m hm _ h => h.2 (hbody _ hm)) hword)
  rw [generated_eq_least, generated_eq_least]
  exact fun word hword => (least_le hL n hword).2 hn

/-- Removing useless symbols keeps the language. -/
theorem hasWord_withoutUselessSymbols_iff (hg : g.IsPlain) {word : List TerminalId} :
    g.withoutUselessSymbols.HasWord word ↔ g.HasWord word := by
  obtain ⟨-, hsame, hsub, -⟩ := mem_ruleSet_withoutUselessSymbols hg
  rw [HasWord, HasWord, hsame]
  constructor
  · intro h
    rw [generates_iff_mem_least] at h ⊢
    exact least_mono hsub _ h
  · intro h
    have hstart := mem_generating_iff.mpr ⟨word, h⟩
    exact generated_le_withoutUselessSymbols hg hstart (start_mem_reachableSymbols hstart) h

/-! ## What is left -/

/-- Whether a symbol occurs in a derivation of a word from the start symbol. -/
def Uses (g : Grammar) (s : Symbol) : Prop :=
  ∃ before after word, g.Derives [.nonterminal g.start] (before ++ s :: after) ∧
    g.Derives (before ++ s :: after) (sentence word)

/-- Whether a rule is applied in a derivation of a word from the start symbol. -/
def Applies (g : Grammar) (id : RuleId) : Prop :=
  ∃ form next word, g.Derives [.nonterminal g.start] form ∧ g.Expands id form next ∧
    g.Derives next (sentence word)

/-- All symbols that are reached are generating. -/
theorem counts_of_mem_reachableSymbols (hstart : g.start ∈ g.generating)
    (hs : s ∈ g.reachableSymbols g.generating) : counts true g.generating s = true := by
  cases (mem_reachableSymbols_iff hstart).mp hs with
  | refl => exact List.contains_iff_mem.mpr hstart
  | @tail k _ _ hlast =>
      cases k with
      | terminal t => exact absurd hlast List.not_mem_nil
      | nonterminal m =>
          obtain ⟨body, -, hbody, hs⟩ := mem_usefulSuccessors_iff.mp hlast
          exact hbody s hs

theorem isUseful_iff_mem_reachableSymbols (hstart : g.start ∈ g.generating) :
    g.IsUseful s = true ↔ s ∈ g.reachableSymbols g.generating :=
  isUseful_iff.trans (and_iff_left_of_imp (counts_of_mem_reachableSymbols hstart))

/-- Besides the end of input and the start symbol only useful symbols stay. -/
theorem cases_of_declares (hg : g.IsPlain) (h : g.withoutUselessSymbols.Declares s) :
    s = .terminal endOfInput ∨ s = .nonterminal g.start ∨ g.IsUseful s = true := by
  have hkept : ((g.toDefinition.copyRules g).retain g.IsUseful).declaresSymbol s = true := by
    cases s with
    | terminal t => exact Definition.declaresSymbol_terminal.mpr h
    | nonterminal m => exact Definition.declaresSymbol_nonterminal.mpr h
  obtain ⟨-, hkeeps⟩ := Definition.declaresSymbol_retain.mp hkept
  cases s with
  | terminal t =>
      refine hkeeps.imp (fun hend => ?_) Or.inr
      rw [hend]
  | nonterminal m =>
      refine Or.inr (hkeeps.imp_left fun hm => ?_)
      have hsame := (Definition.continues_copyRules hg.toDefinition hg.admits).start_eq
      rw [Option.some.inj (hm.trans hsame)]

/-- If there is a word, only useful symbols stay besides the end of input. -/
theorem isUseful_of_declares (hg : g.IsPlain) (hstart : g.start ∈ g.generating)
    (h : g.withoutUselessSymbols.Declares s) (hne : s ≠ .terminal endOfInput) :
    g.IsUseful s = true := by
  rcases cases_of_declares hg h with hend | rfl | huseful
  · exact absurd hend hne
  · exact (isUseful_iff_mem_reachableSymbols hstart).mpr (start_mem_reachableSymbols hstart)
  · exact huseful

/-- A form of useful symbols still derives a word. -/
theorem exists_word_of_isUseful (hg : g.IsPlain) (hstart : g.start ∈ g.generating)
    {form : List Symbol} (hform : ∀ s ∈ form, g.IsUseful s = true) :
    ∃ word, g.withoutUselessSymbols.Derives form (sentence word) := by
  refine exists_word_of_forall fun n hn => ?_
  obtain ⟨hreached, hgenerates⟩ := isUseful_iff.mp (hform _ hn)
  obtain ⟨word, hword⟩ := mem_generating_iff.mp (List.contains_iff_mem.mp hgenerates)
  exact ⟨word, generated_le_withoutUselessSymbols hg hstart hreached hword⟩

/-- What holds of all symbols of a form and of a body holds after one of them is replaced by
the body. -/
theorem forall_mem_replace {P : Symbol → Prop} {before after body : List Symbol}
    (hform : ∀ r ∈ before ++ s :: after, P r) (hbody : ∀ r ∈ body, P r) :
    ∀ r ∈ before ++ body ++ after, P r := by
  obtain ⟨hbefore, hrest⟩ := List.forall_mem_append.mp hform
  obtain ⟨-, hafter⟩ := List.forall_mem_cons.mp hrest
  exact List.forall_mem_append.mpr ⟨List.forall_mem_append.mpr ⟨hbefore, hbody⟩, hafter⟩

/-- What is reached is still reached, in a form of useful symbols. -/
theorem exists_form_of_isUseful (hg : g.IsPlain) (hstart : g.start ∈ g.generating)
    (hs : g.IsUseful s = true) :
    ∃ before after, g.withoutUselessSymbols.Derives [.nonterminal g.start] (before ++ s :: after) ∧
      ∀ r ∈ before ++ s :: after, g.IsUseful r = true := by
  obtain ⟨-, -, -, hkept⟩ := mem_ruleSet_withoutUselessSymbols hg
  have hreach := (mem_reachableSymbols_iff hstart).mp (isUseful_iff.mp hs).1
  induction hreach with
  | refl => exact ⟨[], [], Derives.refl _, by simpa using hs⟩
  | @tail k s hfirst hlast ih =>
      cases k with
      | terminal t => exact absurd hlast List.not_mem_nil
      | nonterminal m =>
          have hm := (isUseful_iff_mem_reachableSymbols hstart).mpr
            ((mem_reachableSymbols_iff hstart).mpr hfirst)
          obtain ⟨before, after, hform, huseful⟩ := ih hm
          obtain ⟨body, hrule, hbody, hsbody⟩ := mem_usefulSuccessors_iff.mp hlast
          have hbodyUseful : ∀ r ∈ body, g.IsUseful r = true := fun r hr =>
            isUseful_iff.mpr ⟨mem_reachableSymbols_of_rule hstart hrule
              (isUseful_iff.mp hm).1 hbody r hr, hbody r hr⟩
          obtain ⟨id, hid⟩ := exists_get?_of_mem_ruleSet (hkept ⟨m, body⟩ hrule hm hbodyUseful)
          have hnext := hform.trans (((Derives.of_rule hid).append_right after).append_left before)
          have hall := forall_mem_replace huseful hbodyUseful
          obtain ⟨front, back, rfl⟩ := List.append_of_mem hsbody
          exact ⟨before ++ front, back ++ after, by simpa using hnext, by simpa using hall⟩

/-- If there is a word, every symbol that is left is used, but perhaps the end of input. -/
theorem uses_withoutUselessSymbols (hg : g.IsPlain) (hstart : g.start ∈ g.generating)
    (hs : g.withoutUselessSymbols.Declares s) (hne : s ≠ .terminal endOfInput) :
    g.withoutUselessSymbols.Uses s := by
  have huseful := isUseful_of_declares hg hstart hs hne
  obtain ⟨before, after, hform, hall⟩ := exists_form_of_isUseful hg hstart huseful
  obtain ⟨word, hword⟩ := exists_word_of_isUseful hg hstart hall
  rw [Uses, (mem_ruleSet_withoutUselessSymbols hg).2.1]
  exact ⟨before, after, word, hform, hword⟩

/-- If there is a word, every rule that is left is applied. -/
theorem applies_withoutUselessSymbols (hg : g.IsPlain) (hstart : g.start ∈ g.generating)
    {id : RuleId} (hid : id ∈ g.withoutUselessSymbols.rules.keys) :
    g.withoutUselessSymbols.Applies id := by
  obtain ⟨hplain, hsame, -, -⟩ := mem_ruleSet_withoutUselessSymbols hg
  obtain ⟨rule, hrule⟩ := OrderedMap.mem_keys_iff.mp hid
  have hmem := mem_ruleSet_of_get? hrule
  have hhead := isUseful_of_declares hg hstart (hplain.heads_declared rule hmem) Symbol.noConfusion
  have hbody : ∀ r ∈ rule.body, g.IsUseful r = true := fun r hr =>
    isUseful_of_declares hg hstart (hplain.bodies_declared rule hmem r hr) fun hend =>
      hplain.endOfInput_unused rule hmem (hend ▸ hr)
  obtain ⟨before, after, hform, hall⟩ := exists_form_of_isUseful hg hstart hhead
  obtain ⟨word, hword⟩ := exists_word_of_isUseful hg hstart
    (forall_mem_replace hall hbody)
  rw [Applies, hsame]
  exact ⟨_, _, word, hform, Expands.intro hrule before after, hword⟩

/-- If there is no word, no symbol is left but the end of input and the start symbol. -/
theorem keys_withoutUselessSymbols (hg : g.IsPlain) (hstart : g.start ∉ g.generating) :
    g.withoutUselessSymbols.terminals.keys = [endOfInput] ∧
      g.withoutUselessSymbols.nonterminals.keys = [g.start] := by
  obtain ⟨hplain, hsame, -, -⟩ := mem_ruleSet_withoutUselessSymbols hg
  have hdeclared := hplain.start_declared
  rw [hsame] at hdeclared
  have hnone : ∀ s, g.IsUseful s ≠ true := by
    intro s hs
    have hreached := (isUseful_iff.mp hs).1
    rw [reachableSymbols, if_neg (mt List.contains_iff_mem.mp hstart)] at hreached
    exact List.not_mem_nil hreached
  constructor
  · refine OrderedMap.keys_eq_singleton (OrderedMap.mem_keys_of_get? hplain.endOfInput_named)
      fun t ht => ?_
    rcases cases_of_declares (s := .terminal t) hg ht with hend | hstart | huseful
    · exact Symbol.terminal.inj hend
    · exact Symbol.noConfusion hstart
    · exact absurd huseful (hnone _)
  · refine OrderedMap.keys_eq_singleton hdeclared fun n hn => ?_
    rcases cases_of_declares (s := .nonterminal n) hg hn with hend | hstart | huseful
    · exact Symbol.noConfusion hend
    · exact Symbol.nonterminal.inj hstart
    · exact absurd huseful (hnone _)

end GrammarAnalysis.Grammar

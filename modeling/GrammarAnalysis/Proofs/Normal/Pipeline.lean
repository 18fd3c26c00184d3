import GrammarAnalysis.Normal.Pipeline
import GrammarAnalysis.Proofs.Normal.CommonPrefix
import GrammarAnalysis.Proofs.Normal.LeftRecursion
import GrammarAnalysis.Proofs.Normal.Useless
import GrammarAnalysis.Proofs.Normal.Variants

/-!
# The passes in sequence keep the language

Of the passes only the removal of epsilon rules changes the language: it drops the
empty word.  The fresh start symbol, if there is one, gives the empty word back
and adds no other word, since no rule leads back to it.

Every pass can run out of numbers, but for the removal of useless symbols.  Together
they come to an end exactly if each grammar on the way has its numbers below the last
one (`Normalization.ofGrammar?_eq`).
-/

namespace GrammarAnalysis

namespace Grammar

open Reading

variable {g : Grammar} {word : List TerminalId}

/-! ## Bodies in normal form -/

/-- Whether a body is neither empty nor a single nonterminal. -/
def IsNormalBody (body : List Symbol) : Prop := body ≠ [] ∧ ∀ n, body ≠ [.nonterminal n]

/-- Without epsilon rules first and without unit rules then, all bodies are in normal form. -/
theorem isNormalBody_of_withoutUnitRules (hg : g.IsPlain)
    (hbodies : ∀ rule ∈ g.ruleSet, rule.body ≠ []) :
    ∀ rule ∈ g.withoutUnitRules.ruleSet, IsNormalBody rule.body := by
  intro rule hrule
  obtain ⟨-, hbody⟩ := ((mem_ruleSet_withoutUnitRules hg).2.2 rule).mp hrule
  obtain ⟨hunit, source, -, hsource⟩ := mem_unitFreeBodies.mp hbody
  have hne := hbodies _ hsource
  refine ⟨hne, fun n hn => ?_⟩
  rw [isUnitBody_iff.mpr ⟨n, hn⟩] at hunit
  exact Bool.noConfusion hunit

/-! ## The fresh start symbol -/

/-- A plain grammar lists no body of a nonterminal twice. -/
theorem IsPlain.nodup_bodiesOf (hg : g.IsPlain) (n : NonterminalId) : (g.bodiesOf n).Nodup := by
  refine List.Nodup.of_map (Rule.mk n) ?_
  have hrules : (g.bodiesOf n).map (Rule.mk n) = (g.rulesOf n).map Prod.snd := by
    rw [bodiesOf, List.map_map]
    refine List.map_congr_left fun entry hentry => ?_
    rw [← of_decide_eq_true (List.mem_filter.mp hentry).2]
    rfl
  rw [hrules]
  exact hg.rules_nodup.sublist (List.filter_sublist.map Prod.snd)

/-- Whether the grammar has a start symbol in front of the inner one: it has a rule for the
inner start symbol and one for the empty word, and no body mentions it. -/
structure AddsStart (g inner : Grammar) : Prop where
  start_not_mem : g.start ∉ inner.nonterminals.keys
  start_bodies : (g.bodiesOf g.start).Perm [[.nonterminal inner.start], []]
  start_unused : ∀ rule ∈ g.ruleSet, .nonterminal g.start ∉ rule.body

/-- The rules of a grammar with a fresh start symbol. -/
theorem ruleSet_withEmptyStart (hg : g.IsPlain) :
    g.withEmptyStart.IsPlain ∧ g.withEmptyStart.start ∉ g.nonterminals.keys ∧
      g.withEmptyStart.ruleSet =
        g.ruleSet ∪ rulesFor g.withEmptyStart.start [[.nonterminal g.start], []] := by
  have hcopied := Definition.continues_copyRules hg.toDefinition hg.admits
  let base := ((g.toDefinition.copyRules g).nonterminals.get? g.start).getD ""
  obtain ⟨hfresh, hnew, hdeclared⟩ := Definition.continues_freshNonterminal hcopied.isPlain base
  let fresh := ((g.toDefinition.copyRules g).freshNonterminal base).1
  have hstart : g.toDefinition.declaresSymbol (.nonterminal g.start) = true :=
    declaresSymbol_toDefinition.mpr hg.start_declared
  have hadmits : ∀ body ∈ [[.nonterminal g.start], []],
      ((g.toDefinition.copyRules g).freshNonterminal base).2.Admits ⟨fresh, body⟩ := by
    intro body hbody
    refine ⟨hdeclared, fun s hs => ?_⟩
    obtain rfl : s = .nonterminal g.start := by
      rcases List.mem_pair.mp hbody with rfl | rfl
      · exact List.mem_singleton.mp hs
      · contradiction
    exact ⟨hfresh.declares _ (hcopied.declares _ hstart), Symbol.noConfusion⟩
  have hadded := Definition.continues_ensureRules hfresh.isPlain hadmits
  obtain ⟨hplain, hsame, hrules⟩ : g.withEmptyStart.IsPlain ∧ g.withEmptyStart.start = fresh ∧
      g.withEmptyStart.ruleSet = _ :=
    isPlain_rebuild _ (hadded.isPlain.setStart (hadded.declares _ hdeclared)) rfl
  rw [hsame]
  refine ⟨hplain, fun hkey => ?_, hrules.trans (hadded.ruleSet_eq.trans ?_)⟩
  · exact hnew (hcopied.declares.mem_keys hkey)
  · rw [hfresh.ruleSet_eq, hcopied.ruleSet_eq, ruleSet_toDefinition, Set.empty_union,
      Set.union_empty]

/-- Rules of a plain grammar do not mention what it does not declare. -/
theorem IsPlain.avoids {n : NonterminalId} (hg : g.IsPlain) (hn : n ∉ g.nonterminals.keys) :
    ∀ rule ∈ g.ruleSet, rule.Avoids n :=
  fun rule hrule => (hg.admits rule hrule).avoids hn

/-- The fresh start symbol gives the empty word and no other word. -/
theorem hasWord_withEmptyStart_iff (hg : g.IsPlain) :
    g.withEmptyStart.HasWord word ↔ g.HasWord word ∨ word = [] := by
  obtain ⟨-, hnew, hrules⟩ := ruleSet_withEmptyStart hg
  have hne : g.start ≠ g.withEmptyStart.start := by
    intro heq
    exact hnew (heq ▸ hg.start_declared)
  have hbodies : ∀ body ∈ [[Symbol.nonterminal g.start], []],
      Symbol.nonterminal g.withEmptyStart.start ∉ body := by
    simpa using hne.symm
  rw [HasWord, HasWord, generates_iff_mem_least, generates_iff_mem_least, hrules,
    least_union_rulesFor (hg.avoids hnew) hbodies]
  constructor
  · rintro ⟨body, hbody, hword⟩
    rcases List.mem_pair.mp hbody with rfl | rfl
    · rw [ofForm_singleton] at hword
      exact Or.inl hword
    · exact Or.inr hword
  · rintro (hword | rfl)
    · refine ⟨[.nonterminal g.start], by simp, ?_⟩
      rw [ofForm_singleton]
      exact hword
    · exact ⟨[], by simp, rfl⟩

theorem addsStart_withEmptyStart (hg : g.IsPlain) : g.withEmptyStart.AddsStart g := by
  obtain ⟨hplain, hnew, hrules⟩ := ruleSet_withEmptyStart hg
  refine ⟨hnew, ?_, fun rule hrule hmention => ?_⟩
  · refine (List.perm_ext_iff_of_nodup (hplain.nodup_bodiesOf _) (by simp)).mpr fun body => ?_
    rw [mem_bodiesOf, hrules, Set.mem_union, mem_rulesFor]
    constructor
    · rintro (hrule | ⟨-, hbody⟩)
      · exact absurd rfl (hg.avoids hnew _ hrule).1
      · exact hbody
    · exact fun hbody => Or.inr ⟨rfl, hbody⟩
  · rw [hrules] at hrule
    rcases hrule with hrule | ⟨-, hbody⟩
    · exact (hg.avoids hnew rule hrule).2 hmention
    · rcases List.mem_pair.mp hbody with hbody | hbody
      · rw [hbody, List.mem_singleton, Symbol.nonterminal.injEq] at hmention
        exact hnew (hmention ▸ hg.start_declared)
      · rw [hbody] at hmention
        contradiction

/-! ## The last three passes -/

/-- The grammar without useless symbols, epsilon rules and unit rules. -/
def normalCore (g : Grammar) : Grammar :=
  g.withoutUselessSymbols.withoutEpsilonRules.withoutUnitRules

theorem almostNormalForm_eq (g : Grammar) : g.almostNormalForm =
    (g.normalCore.restoreEmptyWord g.withoutUselessSymbols.acceptsEmptyWord,
      g.withoutUselessSymbols.acceptsEmptyWord) := rfl

theorem isPlain_normalCore (hg : g.IsPlain) : g.normalCore.IsPlain := by
  have huseful := (mem_ruleSet_withoutUselessSymbols hg).1
  have hfree := (mem_ruleSet_withoutEpsilonRules huseful).1
  exact (mem_ruleSet_withoutUnitRules hfree).1

theorem isNormalBody_of_normalCore (hg : g.IsPlain) :
    ∀ rule ∈ g.normalCore.ruleSet, IsNormalBody rule.body := by
  have huseful := (mem_ruleSet_withoutUselessSymbols hg).1
  have hfree := (mem_ruleSet_withoutEpsilonRules huseful).1
  exact isNormalBody_of_withoutUnitRules hfree (body_ne_nil_of_withoutEpsilonRules huseful)

/-- Before the empty word is restored, it is the only word that is missing. -/
theorem hasWord_normalCore_iff (hg : g.IsPlain) :
    g.normalCore.HasWord word ↔ g.HasWord word ∧ word ≠ [] := by
  obtain ⟨huseful, -⟩ := mem_ruleSet_withoutUselessSymbols hg
  obtain ⟨hfree, hfreeStart, -⟩ := mem_ruleSet_withoutEpsilonRules huseful
  obtain ⟨-, hstart, -⟩ := mem_ruleSet_withoutUnitRules hfree
  rw [normalCore, HasWord, generates_withoutUnitRules_iff hfree, hstart, hfreeStart,
    generates_withoutEpsilonRules_iff huseful, ← HasWord, hasWord_withoutUselessSymbols_iff hg]

theorem acceptsEmptyWord_withoutUselessSymbols_iff (hg : g.IsPlain) :
    g.withoutUselessSymbols.acceptsEmptyWord = true ↔ g.HasWord [] :=
  acceptsEmptyWord_iff.trans (hasWord_withoutUselessSymbols_iff hg)

/-- The last three passes keep the language, the empty word included. -/
theorem hasWord_almostNormalForm_iff (hg : g.IsPlain) :
    g.almostNormalForm.1.HasWord word ↔ g.HasWord word := by
  have hempty := acceptsEmptyWord_withoutUselessSymbols_iff hg
  rw [almostNormalForm_eq]
  cases hwanted : g.withoutUselessSymbols.acceptsEmptyWord with
  | true =>
      rw [restoreEmptyWord, if_pos rfl, hasWord_withEmptyStart_iff (isPlain_normalCore hg),
        hasWord_normalCore_iff hg]
      by_cases hword : word = []
      · rw [hword]
        simp [hempty.mp hwanted]
      · simp [hword]
  | false =>
      rw [restoreEmptyWord, if_neg Bool.false_ne_true, hasWord_normalCore_iff hg,
        and_iff_left_iff_imp]
      rintro h rfl
      rw [hempty.mpr h] at hwanted
      contradiction

/-- Only rules of the fresh start symbol are not in normal form. -/
theorem isNormalBody_of_almostNormalForm (hg : g.IsPlain) :
    ∀ rule ∈ g.almostNormalForm.1.ruleSet, IsNormalBody rule.body ∨
      g.almostNormalForm.2 = true ∧ rule.head = g.almostNormalForm.1.start := by
  intro rule hrule
  rw [almostNormalForm_eq] at hrule ⊢
  cases hwanted : g.withoutUselessSymbols.acceptsEmptyWord with
  | true =>
      rw [hwanted, restoreEmptyWord, if_pos rfl,
        (ruleSet_withEmptyStart (isPlain_normalCore hg)).2.2] at hrule
      rcases hrule with hrule | ⟨hhead, -⟩
      · exact Or.inl (isNormalBody_of_normalCore hg rule hrule)
      · exact Or.inr ⟨rfl, hhead⟩
  | false =>
      rw [hwanted, restoreEmptyWord, if_neg Bool.false_ne_true] at hrule
      exact Or.inl (isNormalBody_of_normalCore hg rule hrule)

theorem almostNormalForm_snd_iff (hg : g.IsPlain) :
    g.almostNormalForm.2 = true ↔ g.HasWord [] := by
  rw [almostNormalForm_eq]
  exact acceptsEmptyWord_withoutUselessSymbols_iff hg

theorem addsStart_almostNormalForm (hg : g.IsPlain) (hwanted : g.almostNormalForm.2 = true) :
    g.almostNormalForm.1.AddsStart g.normalCore := by
  rw [almostNormalForm_eq] at hwanted ⊢
  have hrestored : g.normalCore.restoreEmptyWord g.withoutUselessSymbols.acceptsEmptyWord =
      g.normalCore.withEmptyStart := if_pos hwanted
  rw [hrestored]
  exact addsStart_withEmptyStart (isPlain_normalCore hg)

/-! ## Numbers -/

theorem restoreEmptyWord?_eq (h : g.InRange) (wanted : Bool) : g.restoreEmptyWord? wanted =
    if (g.restoreEmptyWord wanted).InRange then some (g.restoreEmptyWord wanted) else none := by
  cases wanted with
  | true => exact g.withEmptyStart?_eq
  | false => exact (if_pos h).symm

/-- The grammars that the last three passes make and that can have too many symbols or rules. -/
def normalStages (g : Grammar) : List Grammar :=
  [g.withoutUselessSymbols.withoutEpsilonRules, g.normalCore, g.almostNormalForm.1]

theorem almostNormalForm?_eq (hg : g.IsPlain) (h : g.InRange) : g.almostNormalForm? =
    if ∀ stage ∈ g.normalStages, stage.InRange then some g.almostNormalForm else none := by
  rw [almostNormalForm?, withoutUselessSymbols?_eq hg h]
  simp only [Option.bind_eq_bind, Option.bind_some, withoutEpsilonRules?_eq]
  by_cases hfree : g.withoutUselessSymbols.withoutEpsilonRules.InRange
  · rw [if_pos hfree, Option.bind_some, withoutUnitRules?_eq, ← normalCore]
    by_cases hcore : g.normalCore.InRange
    · rw [if_pos hcore, Option.bind_some, restoreEmptyWord?_eq hcore]
      by_cases hnormal : g.almostNormalForm.1.InRange
      · rw [almostNormalForm_eq] at hnormal
        simp [normalStages, hfree, hcore, hnormal, almostNormalForm_eq]
      · rw [almostNormalForm_eq] at hnormal
        simp [normalStages, hnormal, almostNormalForm_eq]
    · simp [normalStages, hcore]
  · simp [normalStages, hfree]

end Grammar

/-! ## All passes -/

namespace Normalization

open Grammar

variable {g : Grammar}

/-- The results of all passes if numbers never ran out. -/
def unbounded (g : Grammar) : Normalization :=
  let factored := g.withoutLeftRecursion.withoutCommonPrefix
  { withoutLeftRecursion := g.withoutLeftRecursion
    withoutCommonPrefix := factored
    withoutUselessSymbols := factored.withoutUselessSymbols
    withoutEpsilonRules := factored.withoutUselessSymbols.withoutEpsilonRules
    almostNormalForm := factored.almostNormalForm.1
    acceptsEmptyWord := factored.almostNormalForm.2 }

/-- The grammars that are made and that can have too many symbols or rules. -/
def stages (g : Grammar) : List Grammar :=
  g.withoutLeftRecursion :: g.withoutLeftRecursion.withoutCommonPrefix ::
    g.withoutLeftRecursion.withoutCommonPrefix.normalStages

/-- Left recursion and common prefixes are removed first; what follows is one more pass, whose
intermediate results are listed, too. -/
theorem ofGrammar?_eq_bind (g : Grammar) : ofGrammar? g =
    g.withoutLeftRecursion?.bind fun recursionFree =>
      recursionFree.withoutCommonPrefix?.bind fun factored =>
        factored.almostNormalForm?.bind fun normal =>
          factored.withoutUselessSymbols?.bind fun useful =>
            useful.withoutEpsilonRules?.bind fun epsilonFree =>
              some ⟨recursionFree, factored, useful, epsilonFree, normal.1, normal.2⟩ := by
  simp only [ofGrammar?, almostNormalForm?, Option.bind_eq_bind, Option.pure_def]
  refine congrArg _ (funext fun recursionFree => congrArg _ (funext fun factored => ?_))
  cases factored.withoutUselessSymbols? with
  | none => rfl
  | some useful =>
      cases hfree : useful.withoutEpsilonRules? with
      | none => simp [hfree]
      | some epsilonFree => simp [hfree, Option.bind_assoc]

/-- All passes come to an end exactly if each grammar on the way has its numbers below the
last one. -/
theorem ofGrammar?_eq (hg : g.IsPlain) : ofGrammar? g =
    if ∀ stage ∈ stages g, stage.InRange then some (unbounded g) else none := by
  obtain ⟨hfree, -⟩ := generated_withoutLeftRecursion hg
  obtain ⟨hplain, -⟩ := generated_withoutCommonPrefix hfree
  rw [ofGrammar?_eq_bind, withoutLeftRecursion?_eq]
  by_cases hrecursion : g.withoutLeftRecursion.InRange
  · rw [if_pos hrecursion, Option.bind_some, withoutCommonPrefix?_eq]
    by_cases hfactored : g.withoutLeftRecursion.withoutCommonPrefix.InRange
    · rw [if_pos hfactored, Option.bind_some, almostNormalForm?_eq hplain hfactored]
      by_cases hnormal : ∀ stage ∈ g.withoutLeftRecursion.withoutCommonPrefix.normalStages,
          stage.InRange
      · have hfirst := hnormal _ List.mem_cons_self
        rw [if_pos hnormal, Option.bind_some, withoutUselessSymbols?_eq hplain hfactored,
          Option.bind_some, withoutEpsilonRules?_eq, if_pos hfirst, Option.bind_some]
        rw [if_pos (by simpa [stages, hrecursion, hfactored] using hnormal)]
        rfl
      · simp [stages, hnormal]
    · simp [stages, hfactored]
  · simp [stages, hrecursion]

end Normalization

namespace Grammar

variable {g : Grammar}

/-- Left recursion and common prefixes are removed without changing the language. -/
theorem hasWord_withoutCommonPrefix_iff (hg : g.IsPlain) {word : List TerminalId} :
    g.withoutLeftRecursion.withoutCommonPrefix.HasWord word ↔ g.HasWord word := by
  obtain ⟨hfree, hfreeStart, hfreeWords⟩ := generated_withoutLeftRecursion hg
  obtain ⟨-, hstart, hwords⟩ := generated_withoutCommonPrefix hfree
  have hsame : g.withoutLeftRecursion.withoutCommonPrefix.generated g.start =
      g.generated g.start := by
    rw [hwords g.start (hfreeStart ▸ hfree.start_declared),
      hfreeWords g.start hg.start_declared]
  rw [HasWord, hstart, hfreeStart]
  exact Set.ext_iff.mp hsame word

/-- For every grammar that is read from text, all passes together come to an end unless a
grammar on the way has too many symbols or rules.  If they do, they keep the language, and the
flag says whether it contains the empty word.  All bodies of the result are in normal form, but
for the two of a start symbol that is added if the flag is set. -/
theorem normalization_preserves_language {text : String} (hg : ofText text = .ok g) :
    (Normalization.ofGrammar? g = none ↔ ∃ stage ∈ Normalization.stages g, ¬ stage.InRange) ∧
    ∀ results, Normalization.ofGrammar? g = some results →
      (∀ word, results.almostNormalForm.HasWord word ↔ g.HasWord word) ∧
      (results.acceptsEmptyWord = true ↔ g.HasWord []) ∧
      (∀ rule ∈ results.almostNormalForm.ruleSet, IsNormalBody rule.body ∨
        results.acceptsEmptyWord = true ∧ rule.head = results.almostNormalForm.start) ∧
      (results.acceptsEmptyWord = true →
        ∃ inner, results.withoutEpsilonRules.withoutUnitRules? = some inner ∧
          results.almostNormalForm.AddsStart inner) := by
  have hplain := isPlain_of_ofText hg
  obtain ⟨hfree, -⟩ := generated_withoutLeftRecursion hplain
  obtain ⟨hfactored, -⟩ := generated_withoutCommonPrefix hfree
  rw [Normalization.ofGrammar?_eq hplain]
  refine ⟨by simp, fun results hresults => ?_⟩
  obtain ⟨hstages, hsome⟩ := Option.ite_none_right_eq_some.mp hresults
  have hcore : g.withoutLeftRecursion.withoutCommonPrefix.normalCore.InRange :=
    hstages _ (by simp [Normalization.stages, normalStages])
  have hinner : results.withoutEpsilonRules.withoutUnitRules? =
      some g.withoutLeftRecursion.withoutCommonPrefix.normalCore := by
    rw [← Option.some.inj hsome]
    exact (withoutUnitRules?_eq _).trans (if_pos hcore)
  have hnormal : results.almostNormalForm =
      g.withoutLeftRecursion.withoutCommonPrefix.almostNormalForm.1 := by
    rw [← Option.some.inj hsome, Normalization.unbounded]
  have hflag : results.acceptsEmptyWord =
      g.withoutLeftRecursion.withoutCommonPrefix.almostNormalForm.2 := by
    rw [← Option.some.inj hsome, Normalization.unbounded]
  rw [hnormal, hflag]
  refine ⟨fun word => ?_, ?_, ?_, fun hwanted => ⟨_, hinner, ?_⟩⟩
  · rw [hasWord_almostNormalForm_iff hfactored, hasWord_withoutCommonPrefix_iff hplain]
  · rw [almostNormalForm_snd_iff hfactored, hasWord_withoutCommonPrefix_iff hplain]
  · exact isNormalBody_of_almostNormalForm hfactored
  · exact addsStart_almostNormalForm hfactored hwanted

/-- A grammar that all passes change: a left recursion, a common prefix, a useless symbol,
a unit rule and the empty word. -/
theorem normalization_preserves_language_changed :
    ∃ g results, ofText "S -> S a | B | epsilon\nB -> b B | b\nC -> C c\n" = .ok g ∧
      Normalization.ofGrammar? g = some results ∧
      (∀ stage ∈ Normalization.stages g, stage.InRange) ∧
      results.acceptsEmptyWord = true ∧ results.almostNormalForm.HasWord [] ∧ g.HasWord [] := by
  have hcomputed : (ofText "S -> S a | B | epsilon\nB -> b B | b\nC -> C c\n").toOption.map
      (fun g => (Normalization.ofGrammar? g).map Normalization.acceptsEmptyWord) =
      some (some true) := by decide +kernel
  obtain ⟨g, hg, hcomputed⟩ := exists_of_ofText hcomputed
  obtain ⟨results, hresults, hflag⟩ := Option.map_eq_some_iff.mp hcomputed
  obtain ⟨hends, hexact⟩ := normalization_preserves_language hg
  obtain ⟨hlanguage, hempty, -⟩ := hexact results hresults
  have hword := hempty.mp hflag
  refine ⟨g, results, hg, hresults, ?_, hflag, (hlanguage []).mpr hword, hword⟩
  by_contra hstages
  have hnone := hends.mpr (by simpa using hstages)
  exact absurd (hnone.symm.trans hresults) (Option.some_ne_none _).symm

/-- A body with sixteen nullable symbols behind a terminal, one line for each of them. -/
def sixteenChoices : String :=
  "S -> t | s A B C D E F G H I J K L M N O P\nA ->\nB ->\nC ->\nD ->\nE ->\nF ->\nG ->\nH ->\n" ++
    "I ->\nJ ->\nK ->\nL ->\nM ->\nN ->\nO ->\nP ->\n"

/-- The first passes of the pipeline leave the choice as it is. -/
theorem exists_ofText_sixteenChoices :
    ∃ g, ofText sixteenChoices = .ok g ∧
      g.OffersChoice 1 2 ((List.range' 2 16).map .nonterminal) ∧
      g.withoutLeftRecursion.withoutCommonPrefix.withoutUselessSymbols.OffersChoice 1 2
        ((List.range' 2 16).map .nonterminal) := by
  have hcomputed : (ofText sixteenChoices).toOption.map (fun g =>
      decide (g.OffersChoice 1 2 ((List.range' 2 16).map .nonterminal) ∧
        g.withoutLeftRecursion.withoutCommonPrefix.withoutUselessSymbols.OffersChoice 1 2
          ((List.range' 2 16).map .nonterminal))) = some true := by decide +kernel
  obtain ⟨g, hg, hoffers⟩ := exists_of_ofText hcomputed
  exact ⟨g, hg, of_decide_eq_true hoffers⟩

/-- All passes together do not come to an end for this text. -/
theorem exists_ofGrammar?_eq_none :
    ∃ g, ofText sixteenChoices = .ok g ∧ Normalization.ofGrammar? g = none := by
  obtain ⟨g, hg, -, hoffers⟩ := exists_ofText_sixteenChoices
  have hplain := isPlain_of_ofText hg
  obtain ⟨hfree, -⟩ := generated_withoutLeftRecursion hplain
  obtain ⟨hfactored, -⟩ := generated_withoutCommonPrefix hfree
  have hstage := hoffers.not_inRange (mem_ruleSet_withoutUselessSymbols hfactored).1 (by decide)
  refine ⟨g, hg, ?_⟩
  rw [Normalization.ofGrammar?_eq hplain, if_neg]
  exact fun hall => hstage (hall _ (by simp [Normalization.stages, normalStages]))

end Grammar

end GrammarAnalysis

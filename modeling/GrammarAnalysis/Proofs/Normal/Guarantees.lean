import GrammarAnalysis.Proofs.Normal.Fresh
import GrammarAnalysis.Proofs.Normal.Passes

/-!
# What each pass achieves

A pass may be applied to any grammar that is read from text, and to any grammar that
other passes have made from one.  For such a grammar each pass brings the rules into the
form it is named for, and keeps the words that it should keep, unless the grammar that it
has to make has more symbols or rules than there are numbers.
-/

namespace GrammarAnalysis.Grammar

variable {g₀ g : Grammar} {text : String} {passes : List Pass}

theorem ite_inRange_eq_none_iff {ideal : Grammar} :
    (if ideal.InRange then some ideal else none) = none ↔ ¬ ideal.InRange := by
  split <;> simp [*]

/-- A plain grammar lists no rule under two numbers. -/
theorem IsPlain.eq_of_get? (hg : g.IsPlain) {id id' : RuleId} {rule : Rule}
    (h : g.rules.get? id = some rule) (h' : g.rules.get? id' = some rule) : id = id' := by
  have hentry := OrderedMap.get?_eq_some_iff.mp h
  have hentry' := OrderedMap.get?_eq_some_iff.mp h'
  exact congrArg Prod.fst (List.inj_on_of_nodup_map hg.rules_nodup hentry hentry' rfl)

/-! ## Left recursion -/

/-- For every grammar that is made by passes from one that is read from text, removing left
recursion comes to an end unless the result has too many symbols or rules.  It leaves no rule
whose body starts with its own head, and every nonterminal keeps the words that are derived
from it. -/
theorem withoutLeftRecursion_exact (hread : ofText text = .ok g₀)
    (hg : g₀.performAll? passes = some g) :
    (g.withoutLeftRecursion? = none ↔ ¬ g.withoutLeftRecursion.InRange) ∧
    ∀ g', g.withoutLeftRecursion? = some g' →
      (∀ id rule, g'.rules.get? id = some rule →
        rule.body.head? ≠ some (.nonterminal rule.head)) ∧
      ∀ n ∈ g.nonterminals.keys, ∀ word, g'.Generates n word ↔ g.Generates n word := by
  obtain ⟨hplain, -⟩ := isPlain_of_performAll? hread hg
  rw [withoutLeftRecursion?_eq]
  refine ⟨ite_inRange_eq_none_iff, fun g' hg' => ?_⟩
  obtain ⟨rfl, -⟩ := eq_and_inRange_of_ite hg'
  refine ⟨fun id rule hrule => ?_, fun n hn word => ?_⟩
  · exact isRecursionFree_withoutLeftRecursion hplain rule (mem_ruleSet_of_get? hrule)
  · exact Set.ext_iff.mp ((generated_withoutLeftRecursion hplain).2.2 n hn) word

/-- A nonterminal whose other body is empty, with the rules `S -> S S` and `S -> S`. -/
theorem withoutLeftRecursion_exact_doubled :
    ∃ g₀ g g', ofText "S -> S S | S | S a | epsilon\nB -> B\n" = .ok g₀ ∧
      g₀.performAll? [.uselessSymbols] = some g ∧ g.withoutLeftRecursion? = some g' ∧
      g'.rules.values =
        [⟨1, [.nonterminal 2]⟩, ⟨2, [.nonterminal 1, .nonterminal 2]⟩,
          ⟨2, [.terminal 1, .nonterminal 2]⟩, ⟨2, []⟩] ∧
      (∀ id rule, g'.rules.get? id = some rule →
        rule.body.head? ≠ some (.nonterminal rule.head)) ∧
      g.Generates 1 [] := by
  have hcomputed : ((ofText "S -> S S | S | S a | epsilon\nB -> B\n").toOption.bind fun g₀ =>
      (g₀.performAll? [.uselessSymbols]).bind fun g => g.withoutLeftRecursion?.map fun g' =>
        (g.nonterminals.keys, g'.rules.values, g'.nullable)) =
      some ([1], [⟨1, [.nonterminal 2]⟩, ⟨2, [.nonterminal 1, .nonterminal 2]⟩,
        ⟨2, [.terminal 1, .nonterminal 2]⟩, ⟨2, []⟩], [2, 1]) := by decide +kernel
  obtain ⟨g₀, g, hread, hg, hcomputed⟩ := exists_of_performAll? hcomputed
  obtain ⟨g', hg', hcomputed⟩ := Option.map_eq_some_iff.mp hcomputed
  simp only [Prod.mk.injEq] at hcomputed
  obtain ⟨hkeys, hrules, hnullable⟩ := hcomputed
  obtain ⟨hfree, hwords⟩ := (withoutLeftRecursion_exact hread hg).2 g' hg'
  refine ⟨g₀, g, g', hread, hg, hg', hrules, hfree,
    (hwords 1 (by simp [hkeys]) []).mp (mem_nullable_iff.mp ?_)⟩
  simp [hnullable]

/-- Forty thousand characters behind all those that are blank. -/
def manyChars : List Char := (List.range 40000).map fun i => Char.ofNat (65536 + i)

theorem toNat_of_manyChars {i : Nat} (hi : i < 40000) :
    (Char.ofNat (65536 + i)).toNat = 65536 + i := by
  have hvalid : (65536 + i).isValidChar := Or.inr ⟨by omega, by omega⟩
  rw [Char.ofNat, dif_pos hvalid]
  rfl

theorem nodup_manyChars : manyChars.Nodup := by
  refine List.Nodup.map_on (fun i hi j hj h => ?_) List.nodup_range
  have hnumbers := congrArg Char.toNat h
  rw [toNat_of_manyChars (List.mem_range.mp hi),
    toNat_of_manyChars (List.mem_range.mp hj)] at hnumbers
  exact Nat.add_left_cancel hnumbers

/-- A text with forty thousand left-recursive nonterminals is read, but there are not as many
numbers left. -/
theorem exists_withoutLeftRecursion?_eq_none :
    ∃ g, ofText (NamedRule.text (manyChars.map Char.toString) (loopingRules manyChars)) = .ok g ∧
      g.withoutLeftRecursion? = none := by
  have hlength : manyChars.length = 40000 := by rw [manyChars, List.length_map, List.length_range]
  have hne : manyChars ≠ [] := List.ne_nil_of_length_pos (by omega)
  have hchars : ∀ c ∈ manyChars, 65536 ≤ c.toNat := by
    intro c hc
    obtain ⟨i, hi, rfl⟩ := List.mem_map.mp hc
    rw [toNat_of_manyChars (List.mem_range.mp hi)]
    exact Nat.le_add_right _ _
  obtain ⟨g, hg, hkeys⟩ := exists_ofText_loopingRules hne nodup_manyChars
    (fun c hc => name_of_le_toNat (hchars c hc)) (by rw [hlength]; decide)
  refine ⟨g, hg, ?_⟩
  rw [withoutLeftRecursion?_eq, if_neg]
  intro hrange
  obtain ⟨hplain, -⟩ := generated_withoutLeftRecursion (isPlain_of_ofText hg)
  have hfew := hrange.length_nonterminals_lt hplain
  rw [hkeys, hlength, lastNumber] at hfew
  omega

/-! ## Common prefixes -/

/-- For every grammar that is made by passes from one that is read from text, the loop of left
factoring ends as long as there are enough numbers, and left factoring gives its result unless
that has too many symbols or rules.  In it no two rules of a nonterminal, an old or a fresh
one, have bodies that start with the same symbol or are both empty, and every nonterminal keeps
the words that are derived from it. -/
theorem withoutCommonPrefix_exact (hread : ofText text = .ok g₀)
    (hg : g₀.performAll? passes = some g) :
    (∃ last, Definition.Factors g.pendingBodies g.toDefinition last ∧
      g.withoutCommonPrefix = last.finish g.start) ∧
    (g.withoutCommonPrefix? = none ↔ ¬ g.withoutCommonPrefix.InRange) ∧
    ∀ g', g.withoutCommonPrefix? = some g' →
      g' = g.withoutCommonPrefix ∧
      (∀ id id' rule rule', g'.rules.get? id = some rule → g'.rules.get? id' = some rule' →
        rule.head = rule'.head → rule.body.head? = rule'.body.head? → id = id') ∧
      ∀ n ∈ g.nonterminals.keys, ∀ word, g'.Generates n word ↔ g.Generates n word := by
  obtain ⟨hplain, -⟩ := isPlain_of_performAll? hread hg
  obtain ⟨hends, hfactored⟩ := exists_factors_withoutCommonPrefix hplain
  obtain ⟨hplain', -, hwords⟩ := generated_withoutCommonPrefix hplain
  rw [withoutCommonPrefix?_eq]
  refine ⟨hends, ite_inRange_eq_none_iff, fun g' hg' => ?_⟩
  obtain ⟨rfl, -⟩ := eq_and_inRange_of_ite hg'
  refine ⟨rfl, fun id id' rule rule' hrule hrule' hhead hfirst => ?_, fun n hn word => ?_⟩
  · have hsame := hfactored rule (mem_ruleSet_of_get? hrule) rule' (mem_ruleSet_of_get? hrule')
      hhead hfirst
    exact hplain'.eq_of_get? hrule (hsame ▸ hrule')
  · exact Set.ext_iff.mp (hwords n hn) word

/-- Bodies whose remainders are factored again, in two fresh nonterminals that may vanish. -/
theorem withoutCommonPrefix_exact_nested :
    ∃ g₀ g g', ofText "S -> a S b | a S | a | epsilon\n" = .ok g₀ ∧
      g₀.performAll? [.uselessSymbols] = some g ∧ g.withoutCommonPrefix? = some g' ∧
      g'.rules.values =
        [⟨1, [.terminal 1, .nonterminal 2]⟩, ⟨1, []⟩, ⟨2, [.nonterminal 1, .nonterminal 3]⟩,
          ⟨2, []⟩, ⟨3, [.terminal 2]⟩, ⟨3, []⟩] ∧
      (∃ last, Definition.Factors g.pendingBodies g.toDefinition last ∧ g' = last.finish g.start) ∧
      (∀ id id' rule rule', g'.rules.get? id = some rule → g'.rules.get? id' = some rule' →
        rule.head = rule'.head → rule.body.head? = rule'.body.head? → id = id') ∧
      g.Generates 1 [] := by
  have hcomputed : ((ofText "S -> a S b | a S | a | epsilon\n").toOption.bind fun g₀ =>
      (g₀.performAll? [.uselessSymbols]).bind fun g => g.withoutCommonPrefix?.map fun g' =>
        (g.nonterminals.keys, g'.rules.values, g'.nullable)) =
      some ([1], [⟨1, [.terminal 1, .nonterminal 2]⟩, ⟨1, []⟩,
        ⟨2, [.nonterminal 1, .nonterminal 3]⟩, ⟨2, []⟩, ⟨3, [.terminal 2]⟩, ⟨3, []⟩],
        [1, 2, 3]) := by decide +kernel
  obtain ⟨g₀, g, hread, hg, hcomputed⟩ := exists_of_performAll? hcomputed
  obtain ⟨g', hg', hcomputed⟩ := Option.map_eq_some_iff.mp hcomputed
  simp only [Prod.mk.injEq] at hcomputed
  obtain ⟨hkeys, hrules, hnullable⟩ := hcomputed
  obtain ⟨⟨last, hends, hlast⟩, -, hexact⟩ := withoutCommonPrefix_exact hread hg
  obtain ⟨hideal, hfactored, hwords⟩ := hexact g' hg'
  refine ⟨g₀, g, g', hread, hg, hg', hrules, ⟨last, hends, hideal.trans hlast⟩, hfactored,
    (hwords 1 (by simp [hkeys]) []).mp (mem_nullable_iff.mp ?_)⟩
  simp [hnullable]

/-- Two bodies that share seventy thousand symbols are read, but factoring them takes as many
fresh nonterminals. -/
theorem exists_withoutCommonPrefix?_eq_none :
    ∃ g, ofText (NamedRule.text ["S"] (prefixedRules 69999)) = .ok g ∧
      g.withoutCommonPrefix? = none := by
  obtain ⟨g, hg, hkeys⟩ := exists_ofText_prefixedRules 69999
  refine ⟨g, hg, ?_⟩
  rw [withoutCommonPrefix?_eq, if_neg]
  intro hrange
  obtain ⟨hplain, -⟩ := generated_withoutCommonPrefix (isPlain_of_ofText hg)
  have hfew := hrange.length_nonterminals_lt hplain
  rw [lastNumber] at hfew
  omega

/-! ## Useless symbols -/

/-- For every grammar that is made by passes from one that is read from text, removing useless
symbols keeps the language.  If there is a word, every symbol that is left, but perhaps the end
of input, occurs in a derivation of a word from the start symbol by the rules that are left, and
each of these is applied in one.  If there is none, only the end of input and the start symbol
are left. -/
theorem withoutUselessSymbols_exact (hg : ofText text = .ok g) (passes : List Pass) :
    (∀ word, (g.applyAll passes).withoutUselessSymbols.HasWord word ↔
      (g.applyAll passes).HasWord word) ∧
    ((∃ word, (g.applyAll passes).HasWord word) →
      (∀ t ∈ (g.applyAll passes).withoutUselessSymbols.terminals.keys, t ≠ endOfInput →
        (g.applyAll passes).withoutUselessSymbols.Uses (.terminal t)) ∧
      (∀ n ∈ (g.applyAll passes).withoutUselessSymbols.nonterminals.keys,
        (g.applyAll passes).withoutUselessSymbols.Uses (.nonterminal n)) ∧
      ∀ id ∈ (g.applyAll passes).withoutUselessSymbols.rules.keys,
        (g.applyAll passes).withoutUselessSymbols.Applies id) ∧
    ((¬ ∃ word, (g.applyAll passes).HasWord word) →
      (g.applyAll passes).withoutUselessSymbols.terminals.keys = [endOfInput] ∧
      (g.applyAll passes).withoutUselessSymbols.nonterminals.keys =
        [(g.applyAll passes).withoutUselessSymbols.start]) := by
  have hplain := isPlain_applyAll (isPlain_of_ofText hg) passes
  refine ⟨fun word => hasWord_withoutUselessSymbols_iff hplain, fun hword => ?_, fun hnone => ?_⟩
  · have hstart := mem_generating_iff.mpr hword
    refine ⟨fun t ht hne => ?_, fun n hn => ?_, fun id hid => ?_⟩
    · exact uses_withoutUselessSymbols hplain hstart ht fun h => hne (Symbol.terminal.inj h)
    · exact uses_withoutUselessSymbols hplain hstart hn Symbol.noConfusion
    · exact applies_withoutUselessSymbols hplain hstart hid
  · rw [(mem_ruleSet_withoutUselessSymbols hplain).2.1]
    exact keys_withoutUselessSymbols hplain (mt mem_generating_iff.mp hnone)

/-- A symbol that is reached, but only through a body that derives no word, is not left. -/
theorem withoutUselessSymbols_exact_reached :
    ∃ g, ofText "S -> a S | b | A B\nA -> a c\nB -> B d\n" = .ok g ∧
      (g.applyAll [.commonPrefix]).withoutUselessSymbols.terminals.keys = [0, 1, 2] ∧
      (g.applyAll [.commonPrefix]).withoutUselessSymbols.rules.keys = [1, 2] ∧
      (g.applyAll [.commonPrefix]).withoutUselessSymbols.Uses (.terminal 1) ∧
      (g.applyAll [.commonPrefix]).withoutUselessSymbols.Applies 1 := by
  have hcomputed : (ofText "S -> a S | b | A B\nA -> a c\nB -> B d\n").toOption.map
      (fun g => ((g.applyAll [.commonPrefix]).generating,
        (g.applyAll [.commonPrefix]).start,
        (g.applyAll [.commonPrefix]).withoutUselessSymbols.terminals.keys,
        (g.applyAll [.commonPrefix]).withoutUselessSymbols.rules.keys)) =
      some ([1, 2], 1, [0, 1, 2], [1, 2]) := by decide +kernel
  obtain ⟨g, hg, hcomputed⟩ := exists_of_ofText hcomputed
  simp only [Prod.mk.injEq] at hcomputed
  obtain ⟨hgenerating, hstart, hterminals, hrules⟩ := hcomputed
  have hword : ∃ word, (g.applyAll [.commonPrefix]).HasWord word :=
    mem_generating_iff.mp (by simp [hgenerating, hstart])
  obtain ⟨hused, -, happlied⟩ := (withoutUselessSymbols_exact hg [.commonPrefix]).2.1 hword
  exact ⟨g, hg, hterminals, hrules, hused 1 (by simp [hterminals]) (by decide),
    happlied 1 (by simp [hrules])⟩

/-! ## Epsilon rules -/

/-- For every grammar that is made by passes from one that is read from text, removing epsilon
rules comes to an end unless the result has too many rules.  It keeps the nonterminals and leaves
no rule with an empty body.  Every nonterminal keeps the words that are derived from it, but for
the empty one, and the flag tells whether the empty word was derived from the start symbol. -/
theorem withoutEpsilonRules_exact (hread : ofText text = .ok g₀)
    (hg : g₀.performAll? passes = some g) :
    (g.withoutEpsilonRules? = none ↔ ¬ g.withoutEpsilonRules.InRange) ∧
    (∀ g', g.withoutEpsilonRules? = some g' →
      g'.nonterminals = g.nonterminals ∧
      (∀ id rule, g'.rules.get? id = some rule → rule.body ≠ []) ∧
      ∀ n word, g'.Generates n word ↔ g.Generates n word ∧ word ≠ []) ∧
    (g.acceptsEmptyWord = true ↔ g.HasWord []) := by
  obtain ⟨hplain, -⟩ := isPlain_of_performAll? hread hg
  rw [withoutEpsilonRules?_eq]
  refine ⟨ite_inRange_eq_none_iff, fun g' hg' => ?_, acceptsEmptyWord_iff⟩
  obtain ⟨rfl, -⟩ := eq_and_inRange_of_ite hg'
  refine ⟨nonterminals_withoutEpsilonRules _, fun id rule hrule => ?_, fun n word => ?_⟩
  · exact body_ne_nil_of_withoutEpsilonRules hplain rule (mem_ruleSet_of_get? hrule)
  · exact generates_withoutEpsilonRules_iff hplain

/-- A nonterminal that derives the empty word only has no rule left, but it is still mentioned. -/
theorem withoutEpsilonRules_exact_vanishing :
    ∃ g₀ g g', ofText "S -> A S | B\nA -> epsilon\nB -> A A | b\n" = .ok g₀ ∧
      g₀.performAll? [.commonPrefix] = some g ∧ g.withoutEpsilonRules? = some g' ∧
      g'.rules.values =
        [⟨1, [.nonterminal 2, .nonterminal 1]⟩, ⟨1, [.nonterminal 2]⟩, ⟨1, [.nonterminal 3]⟩,
          ⟨3, [.nonterminal 2, .nonterminal 2]⟩, ⟨3, [.nonterminal 2]⟩, ⟨3, [.terminal 1]⟩] ∧
      (∀ id rule, g'.rules.get? id = some rule → rule.body ≠ []) ∧
      g.HasWord [] ∧ ¬ g'.Generates 1 [] := by
  have hcomputed : ((ofText "S -> A S | B\nA -> epsilon\nB -> A A | b\n").toOption.bind fun g₀ =>
      (g₀.performAll? [.commonPrefix]).bind fun g => g.withoutEpsilonRules?.map fun g' =>
        (g'.rules.values, g.acceptsEmptyWord)) =
      some ([⟨1, [.nonterminal 2, .nonterminal 1]⟩, ⟨1, [.nonterminal 2]⟩, ⟨1, [.nonterminal 3]⟩,
        ⟨3, [.nonterminal 2, .nonterminal 2]⟩, ⟨3, [.nonterminal 2]⟩, ⟨3, [.terminal 1]⟩],
        true) := by decide +kernel
  obtain ⟨g₀, g, hread, hg, hcomputed⟩ := exists_of_performAll? hcomputed
  obtain ⟨g', hg', hcomputed⟩ := Option.map_eq_some_iff.mp hcomputed
  obtain ⟨hrules, haccepts⟩ := Prod.mk.inj hcomputed
  obtain ⟨-, hexact, hflag⟩ := withoutEpsilonRules_exact hread hg
  obtain ⟨-, hfree, hwords⟩ := hexact g' hg'
  exact ⟨g₀, g, g', hread, hg, hg', hrules, hfree, hflag.mp haccepts,
    fun h => ((hwords 1 []).mp h).2 rfl⟩

/-- The variants of a body with sixteen nullable symbols are more than there are numbers. -/
theorem exists_withoutEpsilonRules?_eq_none :
    ∃ g, ofText sixteenChoices = .ok g ∧ g.withoutEpsilonRules? = none := by
  obtain ⟨g, hg, hoffers, -⟩ := exists_ofText_sixteenChoices
  refine ⟨g, hg, ?_⟩
  rw [withoutEpsilonRules?_eq, if_neg]
  exact hoffers.not_inRange (isPlain_of_ofText hg) (by decide)

/-! ## Unit rules -/

/-- For every grammar that is made by passes from one that is read from text, the loop that
collects the targets of unit rules ends and gives the targets that are used.  Removing unit
rules comes to an end unless the result has too many rules.  It keeps the nonterminals and leaves
no rule whose body is a single nonterminal, and every nonterminal keeps the words that are
derived from it. -/
theorem withoutUnitRules_exact (hread : ofText text = .ok g₀)
    (hg : g₀.performAll? passes = some g) :
    Settles UnitReach.pass g.directUnitReach g.unitReach ∧
    (g.withoutUnitRules? = none ↔ ¬ g.withoutUnitRules.InRange) ∧
    ∀ g', g.withoutUnitRules? = some g' →
      g'.nonterminals = g.nonterminals ∧
      (∀ id rule, g'.rules.get? id = some rule → ∀ m, rule.body ≠ [.nonterminal m]) ∧
      ∀ n word, g'.Generates n word ↔ g.Generates n word := by
  obtain ⟨hplain, -⟩ := isPlain_of_performAll? hread hg
  rw [withoutUnitRules?_eq]
  refine ⟨settles_unitReach _, ite_inRange_eq_none_iff, fun g' hg' => ?_⟩
  obtain ⟨rfl, -⟩ := eq_and_inRange_of_ite hg'
  refine ⟨nonterminals_withoutUnitRules _, fun id rule hrule m hbody => ?_,
    fun n word => generates_withoutUnitRules_iff hplain⟩
  have hother := isUnitBody_of_withoutUnitRules hplain rule (mem_ruleSet_of_get? hrule)
  rw [isUnitBody_iff.mpr ⟨m, hbody⟩] at hother
  contradiction

/-- Unit rules that lead around in a circle, one from a nonterminal to itself, and an empty
body. -/
theorem withoutUnitRules_exact_circular :
    ∃ g₀ g g', ofText "S -> A | a\nA -> B | S | A\nB -> S | b A | epsilon\n" = .ok g₀ ∧
      g₀.performAll? [.uselessSymbols] = some g ∧ g.withoutUnitRules? = some g' ∧
      g.unitReach.entries = [(1, [2, 3]), (2, [3, 1]), (3, [1, 2])] ∧
      Settles UnitReach.pass g.directUnitReach g.unitReach ∧
      (∀ id rule, g'.rules.get? id = some rule → ∀ m, rule.body ≠ [.nonterminal m]) ∧
      g'.Generates 1 [] := by
  have hcomputed : ((ofText "S -> A | a\nA -> B | S | A\nB -> S | b A | epsilon\n").toOption.bind
      fun g₀ => (g₀.performAll? [.uselessSymbols]).bind fun g => g.withoutUnitRules?.map fun _ =>
        (g.unitReach.entries, g.nullable)) =
      some ([(1, [2, 3]), (2, [3, 1]), (3, [1, 2])], [3, 2, 1]) := by decide +kernel
  obtain ⟨g₀, g, hread, hg, hcomputed⟩ := exists_of_performAll? hcomputed
  obtain ⟨g', hg', hcomputed⟩ := Option.map_eq_some_iff.mp hcomputed
  obtain ⟨hreach, hnullable⟩ := Prod.mk.inj hcomputed
  obtain ⟨hsettles, -, hexact⟩ := withoutUnitRules_exact hread hg
  obtain ⟨-, hfree, hwords⟩ := hexact g' hg'
  refine ⟨g₀, g, g', hread, hg, hg', hreach, hsettles, hfree,
    (hwords 1 []).mpr (mem_nullable_iff.mp ?_)⟩
  simp [hnullable]

/-- A body with fifteen nullable symbols behind a terminal, and two unit rules for its head. -/
def copiedChoices : String :=
  "S -> s A B C D E F G H I J K L M N O\nT -> S\nU -> S\nA ->\nB ->\nC ->\nD ->\nE ->\nF ->\n" ++
    "G ->\nH ->\nI ->\nJ ->\nK ->\nL ->\nM ->\nN ->\nO ->\n"

/-- The epsilon rules of this text can be removed, but then the unit rules cannot. -/
theorem exists_withoutUnitRules?_eq_none :
    ∃ g₀ g, ofText copiedChoices = .ok g₀ ∧ g₀.performAll? [.epsilonRules] = some g ∧
      g.withoutUnitRules? = none := by
  have hcomputed : (ofText copiedChoices).toOption.map (fun g =>
      decide (g.OffersChoice 1 1 ((List.range' 4 15).map .nonterminal) ∧
        (∀ m ∈ ([1, 2, 3] : List NonterminalId), m ≠ 1 → ⟨m, [.nonterminal 1]⟩ ∈ g.rules.values) ∧
        totalBy (fun rule => 2 ^ rule.body.countP (counts false g.nullable)) g.rules.values <
          lastNumber)) = some true := by decide +kernel
  obtain ⟨g, hg, hoffers⟩ := exists_of_ofText hcomputed
  obtain ⟨hoffers, hunits, hroom⟩ := of_decide_eq_true hoffers
  have hplain := isPlain_of_ofText hg
  have hplain' := (mem_ruleSet_withoutEpsilonRules hplain).1
  refine ⟨g, g.withoutEpsilonRules, hg, ?_, ?_⟩
  · simp [performAll?, perform?, (inRange_of_ofText hg).withoutEpsilonRules? hroom]
  · rw [withoutUnitRules?_eq, if_neg]
    apply not_inRange_of_choiceRules (mem_ruleSet_withoutUnitRules hplain').1 (by decide)
      hoffers.nodup (choiceRules_subset_withoutUnitRules hplain'
        (hoffers.mem_withoutEpsilonRules hplain) fun m hm hne =>
          mem_withoutEpsilonRules_of_unit hplain (hunits m hm hne) hne)
    decide

end GrammarAnalysis.Grammar

import GrammarAnalysis.Grammar.Reader
import GrammarAnalysis.Proofs.Predictive.Halting

/-!
# Correctness of the predictive parser

In a table without a conflict the parser answers every word: with its leftmost
derivation if the word belongs to the language, and otherwise not.  Nothing is
asked of the nonterminals of the grammar; they need not be reachable, and they
need not derive a word.
-/

namespace GrammarAnalysis

variable {g : Grammar}

namespace PredictiveTable

/-- The parser answers a word with any leftmost derivation of it. -/
theorem parse_eq_derived (hg : g.IsPlain) (hll1 : (ofGrammar g).isLL1 = true)
    {word : List TerminalId} {ids : List RuleId}
    (hids : g.IsDerivationOf ⟨.leftmost, ids⟩ word) :
    (ofGrammar g).parse word = some (.derived ⟨.leftmost, ids⟩) := by
  obtain ⟨tree, hroot, hrules, rfl⟩ := Grammar.DerivesBy.exists_tree hids
  obtain ⟨last, hreach, hstop⟩ := accepts_tree hg hll1 hrules hroot
  obtain ⟨bound, hrun⟩ := exists_runSteps_of_reaches hreach hstop
  obtain ⟨outcome, hparse⟩ := exists_parse_eq_some hg hll1 tree.leaves
  rw [hparse, runSteps_unique hparse hrun]

theorem isDerivationOf_of_parse (hg : g.IsPlain) {word : List TerminalId}
    {derivation : Derivation}
    (hparse : (ofGrammar g).parse word = some (.derived derivation)) :
    derivation.order = .leftmost ∧ g.IsDerivationOf derivation word := by
  obtain ⟨last, hreach, hstop⟩ := reaches_of_runSteps hparse
  exact isDerivationOf_of_reaches hg hreach hstop

end PredictiveTable

/-- For every grammar that is read from text and has no conflict in its predictive
table, the parser answers every word.  It recognizes exactly the words of the
language, and the derivation it answers with is the only leftmost one. -/
theorem Grammar.exists_correct_predictive_parse {text : String}
    (hg : Grammar.ofText text = .ok g) (hll1 : (PredictiveTable.ofGrammar g).isLL1 = true)
    (word : List TerminalId) :
    ∃ outcome, (PredictiveTable.ofGrammar g).parse word = some outcome ∧
      (outcome.isRecognized = true ↔ g.HasWord word) ∧
      ∀ derivation, outcome = .derived derivation →
        derivation.order = .leftmost ∧ g.IsDerivationOf derivation word ∧
        ∀ ids, g.IsDerivationOf ⟨.leftmost, ids⟩ word → ids = derivation.rules := by
  have hplain := isPlain_of_ofText hg
  obtain ⟨outcome, hparse⟩ := PredictiveTable.exists_parse_eq_some hplain hll1 word
  refine ⟨outcome, hparse, ⟨?_, ?_⟩, ?_⟩
  · intro hrecognized
    cases outcome with
    | notRecognized => simp [ParseOutcome.isRecognized] at hrecognized
    | derived derivation =>
        exact (PredictiveTable.isDerivationOf_of_parse hplain hparse).2.derives
  · intro hword
    obtain ⟨ids, hids⟩ := hword.exists_derivesBy .leftmost
    have hderived := PredictiveTable.parse_eq_derived hplain hll1 hids
    rw [hparse, Option.some.injEq] at hderived
    rw [hderived]
    rfl
  · rintro derivation rfl
    obtain ⟨horder, hderivation⟩ := PredictiveTable.isDerivationOf_of_parse hplain hparse
    refine ⟨horder, hderivation, fun ids hids => ?_⟩
    have hderived := PredictiveTable.parse_eq_derived hplain hll1 hids
    rw [hparse, Option.some.injEq, ParseOutcome.derived.injEq] at hderived
    rw [hderived]

/-- The left-recursive nonterminal of this grammar derives no word; the parser finds
the one derivation of `a b`, and rejects `b`. -/
theorem Grammar.exists_correct_predictive_parse_useless :
    ∃ g, Grammar.ofText "S -> a S b | epsilon | L c\nL -> L d\n" = .ok g ∧
      (PredictiveTable.ofGrammar g).isLL1 = true ∧
      (PredictiveTable.ofGrammar g).parse [1, 2] = some (.derived ⟨.leftmost, [1, 2]⟩) ∧
      (∀ ids, g.IsDerivationOf ⟨.leftmost, ids⟩ [1, 2] → ids = [1, 2]) ∧
      (PredictiveTable.ofGrammar g).parse [2] = some .notRecognized ∧ ¬ g.HasWord [2] := by
  have hcomputed : (Grammar.ofText "S -> a S b | epsilon | L c\nL -> L d\n").toOption.map
      (fun g => ((PredictiveTable.ofGrammar g).isLL1, (PredictiveTable.ofGrammar g).parse [1, 2],
        (PredictiveTable.ofGrammar g).parse [2])) =
      some (true, some (.derived ⟨.leftmost, [1, 2]⟩), some .notRecognized) := by decide +kernel
  obtain ⟨g, hg, hcomputed⟩ := Grammar.exists_of_ofText hcomputed
  simp only [Prod.mk.injEq] at hcomputed
  obtain ⟨hll1, hfound, hrejected⟩ := hcomputed
  obtain ⟨outcome, hparse, -, hunique⟩ := Grammar.exists_correct_predictive_parse hg hll1 [1, 2]
  obtain ⟨outcome', hparse', hword, -⟩ := Grammar.exists_correct_predictive_parse hg hll1 [2]
  obtain rfl : .derived ⟨.leftmost, [1, 2]⟩ = outcome := Option.some.inj (hfound.symm.trans hparse)
  obtain rfl : .notRecognized = outcome' := Option.some.inj (hrejected.symm.trans hparse')
  refine ⟨g, hg, hll1, hfound, (hunique _ rfl).2.2, hrejected, ?_⟩
  exact fun h => Bool.false_ne_true (hword.mpr h)

end GrammarAnalysis

import GrammarAnalysis.Proofs.ShiftReduce.Halting

/-!
# Deciding the language of a productive grammar

If every nonterminal derives a word, then every sentential form does.  So a
deterministic table stops on every word, whether it belongs to the language or
not, and its answer tells which is the case.
-/

namespace GrammarAnalysis

open ParseTree

variable {g a : Grammar}

/-- What a deterministic table answers tells whether the word belongs to the language. -/
theorem LRAutomaton.Drives.isRecognized_iff {A : LRAutomaton a} {table : ParseTable}
    (hd : A.Drives table) (h : g.IsAugmentation a) (hdet : table.isDeterministic = true)
    {word : List TerminalId} (hend : endOfInput ∉ word) {outcome : ParseOutcome}
    (hparse : table.parse word = some outcome) :
    outcome.isRecognized = true ↔ g.HasWord word := by
  cases outcome with
  | derived derivation =>
      obtain ⟨-, tree, hroot, hrules, hleaves⟩ := hd.exists_tree_of_parse h hend hparse
      have hderives := hrules.derivesBy.derives
      rw [hroot, hleaves] at hderives
      exact ⟨fun _ => hderives, fun _ => rfl⟩
  | notRecognized =>
      constructor
      · intro hrecognized
        simp [ParseOutcome.isRecognized] at hrecognized
      · intro hword
        obtain ⟨ids, hids⟩ := hword.exists_derivesBy .rightmost
        rw [hd.parse_eq_derived h hdet hids] at hparse
        simp at hparse

/-- For every grammar that is read from text there are tables of all kinds.  If
every nonterminal derives a word, then a deterministic one stops on every word.
On words without the end of input it recognizes those of the language. -/
theorem Grammar.exists_deciding_parseTable {text : String} (hg : Grammar.ofText text = .ok g)
    (hproductive : g.IsProductive) (kind : TableKind) :
    ∃ table, g.parseTable? kind = some table ∧ (table.isDeterministic = true →
      ∀ word, ∃ outcome, table.parse word = some outcome ∧
        (endOfInput ∉ word → (outcome.isRecognized = true ↔ g.HasWord word))) := by
  obtain ⟨a, table, A, h, htable, hd⟩ := (isPlain_of_ofText hg).exists_drives kind
  have hcomplete := hproductive.isCompletable h.isPlain.isClosed
  refine ⟨table, htable, fun hdet word => ?_⟩
  obtain ⟨bound, outcome, hrun⟩ := hd.stops hdet h hcomplete (LRAutomaton.hasRead_initial A word)
  have hparse := (hd.isBounded h).parse_eq_some_iff.mpr ⟨bound, hrun⟩
  exact ⟨outcome, hparse, fun hend => hd.isRecognized_iff h hdet hend hparse⟩

/-- The SLR(1) table of this grammar, in which both nonterminals derive the empty
word, stops on `a a b` and does not recognize it. -/
theorem Grammar.exists_deciding_parseTable_unbalanced :
    ∃ g table, Grammar.ofText "S -> a S b | T\nT -> epsilon\n" = .ok g ∧ g.IsProductive ∧
      g.parseTable? .slr1 = some table ∧ table.isDeterministic = true ∧
      ∃ outcome, table.parse [1, 1, 2] = some outcome ∧
        (endOfInput ∉ [1, 1, 2] → (outcome.isRecognized = true ↔ g.HasWord [1, 1, 2])) ∧
        outcome.isRecognized = false := by
  have hcomputed : (Grammar.ofText "S -> a S b | T\nT -> epsilon\n").toOption.map (fun g =>
      ((g.parseTable? .slr1).map fun table => (table.isDeterministic, table.parse [1, 1, 2]),
        g.nonterminals.keys, g.rules.get? 2, g.rules.get? 3)) =
      some (some (true, some .notRecognized), [1, 2], some ⟨1, [.nonterminal 2]⟩, some ⟨2, []⟩) := by
    decide +kernel
  obtain ⟨g, hg, hcomputed⟩ := Grammar.exists_of_ofText hcomputed
  simp only [Prod.mk.injEq] at hcomputed
  obtain ⟨htables, hkeys, hsecond, hthird⟩ := hcomputed
  have hproductive : g.IsProductive := by
    intro n hn
    rw [hkeys, List.mem_cons, List.mem_singleton] at hn
    have hempty : g.Generates 2 [] := Grammar.Derives.of_rule hthird
    rcases hn with rfl | rfl
    · exact ⟨[], (Grammar.Derives.of_rule hsecond).trans hempty⟩
    · exact ⟨[], hempty⟩
  obtain ⟨table, htable, hdecides⟩ := Grammar.exists_deciding_parseTable hg hproductive .slr1
  rw [htable, Option.map_some, Option.some.injEq, Prod.mk.injEq] at htables
  obtain ⟨hdet, hanswer⟩ := htables
  obtain ⟨outcome, hparse, hrecognized⟩ := hdecides hdet [1, 1, 2]
  refine ⟨g, table, hg, hproductive, htable, hdet, outcome, hparse, hrecognized, ?_⟩
  rw [hanswer, Option.some.injEq] at hparse
  rw [← hparse]
  rfl

end GrammarAnalysis

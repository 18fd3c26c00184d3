import Mathlib.Data.List.Find
import GrammarAnalysis.Analysis.Report
import GrammarAnalysis.Proofs.Analysis.Words
import GrammarAnalysis.Proofs.ShiftReduce.Filling

/-!
# The verdicts on shift-reduce tables

The report says of a table that it can be used if no conflict is listed, and the parser
of an analysis belongs to the first table that is deterministic.  The cells of a table
hold what the items of its states call for, and the two verdicts agree
(`Grammar.exists_exact_parseTable`).
-/

namespace GrammarAnalysis

variable {g : Grammar}

namespace Analysis

/-- The report says yes exactly if no conflict is listed. -/
theorem tableLine_eq_yes_iff {table : ParseTable} :
    tableLine table = "- " ++ table.kind.name ++ ": yes (" ++
        (toString table.states.length ++ " states") ++ ")\n" ↔ table.conflicts = [] := by
  rw [tableLine, ← List.length_eq_zero_iff]
  split
  · next hnone => exact iff_of_true rfl hnone
  · next hsome =>
    refine iff_of_false (fun heq => ?_) hsome
    have hlist := congrArg String.toList heq
    simp only [String.toList_append, List.append_assoc, List.append_cancel_left_eq] at hlist
    -- the lines differ behind the first two characters of the verdict
    have hverdict := congrArg (List.take 3) hlist
    simp at hverdict

/-- A shift-reduce parser is chosen exactly if it belongs to the first table without a
listed conflict. -/
theorem HasTablesOf.parser?_eq_shiftReduce_iff (hg : g.IsPlain) {stages : Stages}
    {analysis : Analysis} (h : analysis.HasTablesOf g stages) {table : ParseTable} :
    analysis.parser? = some (.shiftReduce table) ↔
      ([analysis.lalr1, analysis.lr1, analysis.slr1].filterMap id).find?
        (fun table => table.conflicts.isEmpty) = some table := by
  have hsame : ∀ table ∈ [analysis.lalr1, analysis.lr1, analysis.slr1].filterMap id,
      table.isDeterministic = table.conflicts.isEmpty := by
    intro table htable
    obtain ⟨kind, hkind⟩ := mem_tables_iff.mp htable
    rw [h.table?_eq, Option.ite_none_right_eq_some] at hkind
    rw [Bool.eq_iff_iff, hg.isDeterministic_iff hkind.2, List.isEmpty_iff]
  rw [parser?, List.find?_congr hsame]
  split
  · next found hfound => simp only [hfound, Option.some.injEq, Parser.shiftReduce.injEq]
  · next hnone => simp only [hnone, Option.map_eq_some_iff, reduceCtorEq, and_false, exists_false]

end Analysis

namespace Grammar

/-- For every grammar that is read from text and each kind of table: filling the table in
one go gives its cells, row by row, and a flag that tells whether it is deterministic.
The cells of a state hold, each once, the actions that its items call for, and no cell of
gotos has a conflict.  So the table is deterministic exactly if it lists no conflict.  The
parser of an analysis is chosen by the former, and the report says yes by the latter. -/
theorem exists_exact_parseTable {text : String} (hg : ofText text = .ok g) :
    ∃ a, g.augmented? = some a ∧
      (∀ kind, ∃ table, g.parseTable? kind = some table ∧
        (Filling.ofStates a table.states (kind.follow? a)).Gives table ∧
        (∀ s state, table.states[s]? = some state → (table.row s).IsExactFor kind a state) ∧
        (∀ s n, ((table.row s).gotos.slot n).isConflict = false) ∧
        (table.isDeterministic = true ↔ table.conflicts = []) ∧
        (Analysis.tableLine table = "- " ++ kind.name ++ ": yes (" ++
          (toString table.states.length ++ " states") ++ ")\n" ↔ table.conflicts = [])) ∧
      ∀ stages analysis, Analysis.ofText text stages = .ok analysis →
        analysis.HasTablesOf g stages ∧ ∀ table,
          (analysis.parser? = some (.shiftReduce table) ↔
            ([analysis.lalr1, analysis.lr1, analysis.slr1].filterMap id).find?
              (fun table => table.conflicts.isEmpty) = some table) := by
  have hplain := isPlain_of_ofText hg
  obtain ⟨a, haccept, h⟩ := hplain.exists_isAugmentation
  refine ⟨a, augmented?_of_withAcceptRule? haccept, fun kind => ?_, ?_⟩
  · have htable := parseTable?_eq_ofStates haccept kind
    exact ⟨_, htable, Filling.gives_ofStates kind a _ _, fun s state => h.isExactFor_row,
      fun s n => ParseTable.isConflict_goto_ofStates, hplain.isDeterministic_iff htable,
      Analysis.tableLine_eq_yes_iff⟩
  · intro stages analysis hanalysis
    rw [Analysis.ofText, hg] at hanalysis
    have htables := Analysis.hasTablesOf_of_ofGrammar hplain hanalysis
    exact ⟨htables, fun table => htables.parser?_eq_shiftReduce_iff hplain⟩

/-- In this ambiguous grammar, after a sum the operator is shifted or the sum is reduced. -/
theorem exists_exact_parseTable_sum :
    ∃ (g a : Grammar) (table : ParseTable) (state : ParserState),
      ofText "S -> S + S | x\n" = .ok g ∧ g.augmented? = some a ∧
      g.parseTable? .lalr1 = some table ∧ table.states[4]? = some state ∧
      state.Calls .lalr1 a 1 (.shift 3) ∧ state.Calls .lalr1 a 1 (.reduce 1) ∧
      table.isDeterministic = false ∧ Analysis.tableLine table ≠ "- " ++ TableKind.lalr1.name ++
        ": yes (" ++ (toString table.states.length ++ " states") ++ ")\n" := by
  have hcomputed : (ofText "S -> S + S | x\n").toOption.map (fun g =>
      (g.parseTable? .lalr1).map fun table => (table.isDeterministic,
        table.states[4]?.isSome, ((table.row 4).actions.slot 1).values)) =
      some (some (false, true, [.shift 3, .reduce 1])) := by decide +kernel
  obtain ⟨g, hg, hcomputed⟩ := exists_of_ofText hcomputed
  obtain ⟨a, haugmented, hexact, -⟩ := exists_exact_parseTable hg
  obtain ⟨table, htable, -, hrows, -, hverdict, hline⟩ := hexact .lalr1
  rw [htable, Option.map_some, Option.some.injEq, Prod.mk.injEq, Prod.mk.injEq] at hcomputed
  obtain ⟨hdet, hstate, hvalues⟩ := hcomputed
  obtain ⟨state, hstate⟩ := Option.isSome_iff_exists.mp hstate
  have hcalls := fun action => (hrows 4 state hstate).mem_iff 1 action
  rw [hvalues] at hcalls
  refine ⟨g, a, table, state, hg, haugmented, htable, hstate, (hcalls _).mp (by simp),
    (hcalls _).mp (by simp), hdet, fun hyes => ?_⟩
  exact Bool.false_ne_true (hdet.symm.trans (hverdict.mpr (hline.mp hyes)))

end Grammar

end GrammarAnalysis

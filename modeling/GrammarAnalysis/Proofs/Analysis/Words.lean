import GrammarAnalysis.Analysis.Words
import GrammarAnalysis.Proofs.Predictive.Correctness
import GrammarAnalysis.Proofs.ShiftReduce.Conflicts

/-!
# Deriving the words of a text

An analysis chooses the first of its tables that has no conflict.  Whichever it
is, its parser derives exactly the words of the grammar, and the rules of each
derivation rebuild a parse tree of the word (`Parser.IsExactFor`).  The
shift-reduce tables belong to the augmented grammar; a derivation of theirs does
not use its reserved rule, and so its tree is a tree of the grammar itself.

Nothing is assumed about the nonterminals of the grammar.  A parser that does not
stop on a word leaves the word without an outcome; the word then does not belong
to the language, and it has no tree.
-/

namespace GrammarAnalysis

open ParseTree

variable {g : Grammar}

/-! ## Tokens -/

namespace Word

/-- The names of a line stand for terminals other than the end of input. -/
theorem endOfInput_not_mem_of_resolve {names : List String} {tokens : List TerminalId}
    (h : resolve g names = .ok tokens) : endOfInput ∉ tokens := by
  induction names generalizing tokens with
  | nil =>
      rw [resolve, Except.ok.injEq] at h
      rw [← h]
      exact List.not_mem_nil
  | cons name names ih =>
      rw [resolve] at h
      split at h
      · contradiction
      · next t ht =>
        cases hrest : resolve g names with
        | error token =>
            rw [hrest] at h
            contradiction
        | ok rest =>
            rw [hrest, Except.map, Except.ok.injEq] at h
            rw [← h, List.mem_cons, not_or]
            refine ⟨?_, ih hrest⟩
            rw [Grammar.terminalNamed?, terminalNamed?, Option.map_eq_some_iff] at ht
            obtain ⟨entry, hentry, rfl⟩ := ht
            have hne := List.find?_some hentry
            simp only [Bool.and_eq_true, decide_eq_true_eq] at hne
            exact fun heq => hne.1 heq.symm

theorem endOfInput_not_mem {text line : String} {tokens : List TerminalId}
    (h : recognized line tokens ∈ ofText g text) : endOfInput ∉ tokens := by
  obtain ⟨characters, -, hline⟩ := List.mem_map.mp h
  rw [ofLine] at hline
  split at hline
  · next found hresolve =>
    rw [recognized.injEq] at hline
    rw [← hline.2]
    exact endOfInput_not_mem_of_resolve hresolve
  · contradiction

end Word

/-! ## Parsers -/

namespace Parser

/-- Whether the parser derives exactly the words of the grammar, apart from words with the
end of input, and each by the rules of one of its parse trees. -/
structure IsExactFor (parser : Parser) (g : Grammar) : Prop where
  derives : ∀ word, g.HasWord word → ∃ derivation, parser.parse word = some (.derived derivation)
  exists_tree : ∀ word derivation, endOfInput ∉ word →
    parser.parse word = some (.derived derivation) →
    ∃ tree, ofDerivation? parser.grammar derivation = some tree ∧ IsTreeOf g tree ∧
      tree.symbol = .nonterminal g.start ∧ tree.leaves = word

/-- The leaves of a tree of the start symbol are a word of the language. -/
theorem hasWord_of_isTreeOf {tree : ParseTree} {word : List TerminalId} (htree : IsTreeOf g tree)
    (hroot : tree.symbol = .nonterminal g.start) (hleaves : tree.leaves = word) :
    g.HasWord word := by
  obtain ⟨ids, hids⟩ := htree.exists_rulesOf .leftmost
  have hderives := hids.derivesBy.derives
  rwa [hroot, hleaves] at hderives

theorem IsExactFor.derived_iff {parser : Parser} (h : parser.IsExactFor g)
    {word : List TerminalId} (hend : endOfInput ∉ word) :
    (∃ derivation, parser.parse word = some (.derived derivation)) ↔ g.HasWord word := by
  constructor
  · rintro ⟨derivation, hparse⟩
    obtain ⟨tree, -, htree, hroot, hleaves⟩ := h.exists_tree word derivation hend hparse
    exact hasWord_of_isTreeOf htree hroot hleaves
  · exact h.derives word

theorem isExactFor_shiftReduce (hg : g.IsPlain) {kind : TableKind} {table : ParseTable}
    (htable : g.parseTable? kind = some table) (hdet : table.isDeterministic = true) :
    (shiftReduce table).IsExactFor g := by
  obtain ⟨a, table', A, h, htable', hd⟩ := hg.exists_drives kind
  obtain rfl := Option.some.inj (htable.symm.trans htable')
  refine ⟨?_, ?_⟩
  · intro word hword
    obtain ⟨ids, hids⟩ := hword.exists_derivesBy .rightmost
    exact ⟨_, hd.parse_eq_derived h hdet hids⟩
  · rintro word ⟨order, ids⟩ hend hparse
    obtain ⟨horder, tree, hroot, hrules, hleaves⟩ := hd.exists_tree_of_parse h hend hparse
    obtain rfl : order = .rightmost := horder
    refine ⟨tree, ?_, hrules.isTreeOf tree (List.mem_singleton.mpr rfl), hroot, hleaves⟩
    rw [grammar, hd.grammar_eq]
    exact (h.rulesOf hrules).ofDerivation?_eq_of_symbol hroot

theorem isExactFor_predictive (hg : g.IsPlain) (hll1 : (PredictiveTable.ofGrammar g).isLL1 = true) :
    (predictive (.ofGrammar g)).IsExactFor g := by
  refine ⟨?_, ?_⟩
  · intro word hword
    obtain ⟨ids, hids⟩ := hword.exists_derivesBy .leftmost
    exact ⟨_, PredictiveTable.parse_eq_derived hg hll1 hids⟩
  · rintro word ⟨order, ids⟩ - hparse
    obtain ⟨horder, hderivation⟩ := PredictiveTable.isDerivationOf_of_parse hg hparse
    obtain rfl : order = .leftmost := horder
    obtain ⟨tree, hroot, hrules, hleaves⟩ := Grammar.DerivesBy.exists_tree hderivation
    exact ⟨tree, hrules.ofDerivation?_eq_of_symbol hroot,
      hrules.isTreeOf tree (List.mem_singleton.mpr rfl), hroot, hleaves⟩

end Parser

/-! ## Results -/

/-- Whether the result is right for the grammar: a word with an unknown token is not
recognized, and a word of known tokens is derived, with a parse tree of the grammar, exactly
if it belongs to the language. -/
structure WordResult.IsRightFor (result : WordResult) (g : Grammar) : Prop where
  unrecognized : ∀ line token, result.word = .unrecognized line token →
    result.outcome = some .notRecognized ∧ result.tree = none
  derived_iff : ∀ line tokens, result.word = .recognized line tokens →
    ((∃ derivation, result.outcome = some (.derived derivation)) ↔ g.HasWord tokens)
  tree_iff : ∀ line tokens, result.word = .recognized line tokens →
    (result.tree.isSome = true ↔ g.HasWord tokens)
  tree_fits : ∀ line tokens tree, result.word = .recognized line tokens →
    result.tree = some tree →
    IsTreeOf g tree ∧ tree.symbol = .nonterminal g.start ∧ tree.leaves = tokens

theorem WordResult.tree_ofWord_eq_some {parser : Parser} {line : String}
    {tokens : List TerminalId} {tree : ParseTree} :
    (ofWord parser (.recognized line tokens)).tree = some tree ↔
      ∃ derivation, parser.parse tokens = some (.derived derivation) ∧
        ofDerivation? parser.grammar derivation = some tree := by
  cases hparse : parser.parse tokens with
  | none => simp [ofWord, hparse]
  | some outcome => cases outcome <;> simp [ofWord, hparse, ParseOutcome.derivation?]

theorem Parser.IsExactFor.isRightFor {parser : Parser} (h : parser.IsExactFor g) {word : Word}
    (hword : ∀ line tokens, word = .recognized line tokens → endOfInput ∉ tokens) :
    (WordResult.ofWord parser word).IsRightFor g := by
  cases word with
  | unrecognized line token =>
      refine ⟨fun _ _ _ => ⟨rfl, rfl⟩, ?_, ?_, ?_⟩ <;> simp [WordResult.ofWord]
  | recognized line tokens =>
      have hend := hword line tokens rfl
      have hfits : ∀ tree, (WordResult.ofWord parser (.recognized line tokens)).tree = some tree →
          IsTreeOf g tree ∧ tree.symbol = .nonterminal g.start ∧ tree.leaves = tokens := by
        intro tree htree
        obtain ⟨derivation, hparse, hbuilt⟩ := WordResult.tree_ofWord_eq_some.mp htree
        obtain ⟨tree', hbuilt', hfits⟩ := h.exists_tree tokens derivation hend hparse
        rwa [Option.some.inj (hbuilt.symm.trans hbuilt')]
      refine ⟨?_, ?_, ?_, ?_⟩
      · intro _ _ hunrecognized
        simp [WordResult.ofWord] at hunrecognized
      · rintro _ _ hrecognized
        obtain ⟨-, rfl⟩ := Word.recognized.inj hrecognized
        exact h.derived_iff hend
      · rintro _ _ hrecognized
        obtain ⟨-, rfl⟩ := Word.recognized.inj hrecognized
        rw [Option.isSome_iff_exists]
        constructor
        · rintro ⟨tree, htree⟩
          obtain ⟨hgrammar, hroot, hleaves⟩ := hfits tree htree
          exact Parser.hasWord_of_isTreeOf hgrammar hroot hleaves
        · intro hlanguage
          obtain ⟨derivation, hparse⟩ := h.derives tokens hlanguage
          obtain ⟨tree, hbuilt, -⟩ := h.exists_tree tokens derivation hend hparse
          exact ⟨tree, WordResult.tree_ofWord_eq_some.mpr ⟨derivation, hparse, hbuilt⟩⟩
      · rintro _ _ tree hrecognized htree
        obtain ⟨-, rfl⟩ := Word.recognized.inj hrecognized
        exact hfits tree htree

/-! ## Tables of an analysis -/

/-- Whether the shift-reduce table of the given kind is built. -/
def Stages.builds (stages : Stages) : TableKind → Bool
  | .slr1 => stages.slr1
  | .lr1 => stages.lr1
  | .lalr1 => stages.lalr1

/-- Whether every table that is built has a conflict. -/
structure Stages.HaveConflicts (stages : Stages) (g : Grammar) : Prop where
  shiftReduce : ∀ kind, stages.builds kind = true →
    ∃ table, g.parseTable? kind = some table ∧ table.conflicts ≠ []
  predictive : stages.ll1 = true → (PredictiveTable.ofGrammar g).conflict ≠ none

namespace Analysis

/-- The shift-reduce table of the given kind, if it has been built. -/
def table? (analysis : Analysis) : TableKind → Option ParseTable
  | .slr1 => analysis.slr1
  | .lr1 => analysis.lr1
  | .lalr1 => analysis.lalr1

/-- Whether the analysis holds the tables of the grammar that the stages build. -/
structure HasTablesOf (analysis : Analysis) (g : Grammar) (stages : Stages) : Prop where
  grammar_eq : analysis.grammar = g
  table?_eq : ∀ kind, analysis.table? kind =
    if stages.builds kind then g.parseTable? kind else none
  ll1_eq : analysis.ll1 = if stages.ll1 then some (.ofGrammar g) else none

theorem whenEnabled_eq_ok {α : Type} {enabled : Bool} {a : α} {result : Option α}
    (h : whenEnabled enabled (.ok a) = .ok result) :
    result = if enabled then some a else none := by
  cases enabled <;> simpa [whenEnabled, Except.map, eq_comm] using h

theorem hasTablesOf_of_ofGrammar (hg : g.IsPlain) {stages : Stages} {analysis : Analysis}
    (h : ofGrammar g stages = .ok analysis) : analysis.HasTablesOf g stages := by
  obtain ⟨a, haccept, -⟩ := hg.exists_isAugmentation
  have haugment : augment g = .ok a := by rw [augment, haccept]
  rw [ofGrammar, haugment] at h
  obtain ⟨slr1, hslr1, h⟩ := exists_of_bind_eq_ok h
  obtain ⟨canonical, hcanonical, h⟩ := exists_of_bind_eq_ok h
  obtain ⟨regular, -, h⟩ := exists_of_bind_eq_ok h
  simp only [pure, Except.pure, Except.ok.injEq] at h
  subst h
  have hslr1 := whenEnabled_eq_ok hslr1
  have hcanonical := whenEnabled_eq_ok hcanonical
  refine ⟨rfl, ?_, rfl⟩
  intro kind
  rw [Grammar.parseTable?_eq haccept]
  cases kind with
  | slr1 => exact hslr1
  | lr1 => cases hlr1 : stages.lr1 <;> simp [table?, Stages.builds, hcanonical, hlr1]
  | lalr1 => cases hlalr1 : stages.lalr1 <;> simp [table?, Stages.builds, hcanonical, hlalr1]

theorem mem_tables_iff {analysis : Analysis} {table : ParseTable} :
    table ∈ [analysis.lalr1, analysis.lr1, analysis.slr1].filterMap id ↔
      ∃ kind, analysis.table? kind = some table := by
  simp only [List.mem_filterMap, List.mem_cons, List.not_mem_nil, or_false, id]
  constructor
  · rintro ⟨_, rfl | rfl | rfl, htable⟩
    · exact ⟨.lalr1, htable⟩
    · exact ⟨.lr1, htable⟩
    · exact ⟨.slr1, htable⟩
  · rintro ⟨kind, htable⟩
    refine ⟨_, ?_, htable⟩
    cases kind <;> simp [table?]

theorem parser?_eq_some {analysis : Analysis} {parser : Parser}
    (h : analysis.parser? = some parser) :
    (∃ kind table, analysis.table? kind = some table ∧ table.isDeterministic = true ∧
      parser = .shiftReduce table) ∨
    ∃ table, analysis.ll1 = some table ∧ table.isLL1 = true ∧ parser = .predictive table := by
  rw [parser?] at h
  split at h
  · next table hfound =>
    obtain ⟨kind, hkind⟩ := mem_tables_iff.mp (List.mem_of_find?_eq_some hfound)
    exact Or.inl ⟨kind, table, hkind, List.find?_some hfound, (Option.some.inj h).symm⟩
  · obtain ⟨table, htable, rfl⟩ := Option.map_eq_some_iff.mp h
    obtain ⟨htable, hll1⟩ := Option.filter_eq_some_iff.mp htable
    exact Or.inr ⟨table, htable, hll1, rfl⟩

theorem parser?_eq_none_iff {analysis : Analysis} :
    analysis.parser? = none ↔
      (∀ kind table, analysis.table? kind = some table → table.isDeterministic = false) ∧
      ∀ table, analysis.ll1 = some table → table.isLL1 = false := by
  have hnone : (∀ kind table, analysis.table? kind = some table → table.isDeterministic = false) ↔
      ([analysis.lalr1, analysis.lr1, analysis.slr1].filterMap id).find?
        ParseTable.isDeterministic = none := by
    simp only [List.find?_eq_none, mem_tables_iff, Bool.not_eq_true]
    exact ⟨fun h table ⟨kind, htable⟩ => h kind table htable,
      fun h kind table htable => h table ⟨kind, htable⟩⟩
  rw [hnone, parser?]
  split
  · next table hfound =>
    simp only [hfound, reduceCtorEq, false_and]
  · next hfound =>
    rw [Option.map_eq_none_iff, Option.filter_eq_none_iff]
    simp only [hfound, true_and, Bool.not_eq_true]

/-- The parser of an analysis is exact, whichever table it belongs to. -/
theorem HasTablesOf.isExactFor (hg : g.IsPlain) {stages : Stages} {analysis : Analysis}
    (h : analysis.HasTablesOf g stages) {parser : Parser}
    (hparser : analysis.parser? = some parser) : parser.IsExactFor g := by
  obtain ⟨kind, table, htable, hdet, rfl⟩ | ⟨table, htable, hll1, rfl⟩ := parser?_eq_some hparser
  · rw [h.table?_eq, Option.ite_none_right_eq_some] at htable
    exact Parser.isExactFor_shiftReduce hg htable.2 hdet
  · rw [h.ll1_eq, Option.ite_none_right_eq_some, Option.some.injEq] at htable
    obtain ⟨-, rfl⟩ := htable
    exact Parser.isExactFor_predictive hg hll1

theorem HasTablesOf.parser?_eq_none_iff (hg : g.IsPlain) {stages : Stages} {analysis : Analysis}
    (h : analysis.HasTablesOf g stages) :
    analysis.parser? = none ↔ stages.HaveConflicts g := by
  rw [Analysis.parser?_eq_none_iff]
  constructor
  · rintro ⟨htables, hll1⟩
    refine ⟨?_, ?_⟩
    · intro kind hbuilt
      obtain ⟨a, table, A, -, htable, -⟩ := hg.exists_drives kind
      refine ⟨table, htable, ?_⟩
      rw [ne_eq, ← hg.isDeterministic_iff htable, Bool.not_eq_true]
      apply htables kind
      rw [h.table?_eq, if_pos hbuilt, htable]
    · intro hbuilt
      have hconflict := hll1 (.ofGrammar g) (by rw [h.ll1_eq, if_pos hbuilt])
      rw [PredictiveTable.isLL1] at hconflict
      exact fun hnone => by simp [hnone] at hconflict
  · rintro ⟨hshiftReduce, hpredictive⟩
    refine ⟨?_, ?_⟩
    · intro kind table htable
      rw [h.table?_eq, Option.ite_none_right_eq_some] at htable
      obtain ⟨table', htable', hconflicts⟩ := hshiftReduce kind htable.1
      obtain rfl := Option.some.inj (htable.2.symm.trans htable')
      rwa [← Bool.not_eq_true, hg.isDeterministic_iff htable.2]
    · intro table htable
      rw [h.ll1_eq, Option.ite_none_right_eq_some, Option.some.injEq] at htable
      obtain ⟨hbuilt, rfl⟩ := htable
      rw [PredictiveTable.isLL1, ← Bool.not_eq_true, Option.isNone_iff_eq_none]
      exact hpredictive hbuilt

/-- Deriving the words of a text gives no results exactly if every table that is built has
a conflict.  Otherwise each word has a result in its place, which is right for the grammar.
If a parser does not stop on a word, the result of that word has no outcome; so nothing is
assumed about the parsers stopping. -/
theorem derive?_words_right {text input : String} {stages : Stages} {analysis : Analysis}
    (h : ofText text stages = .ok analysis) :
    ∃ g, Grammar.ofText text = .ok g ∧ analysis.grammar = g ∧
      (analysis.derive? (analysis.words input) = none ↔ stages.HaveConflicts g) ∧
      ∀ results, analysis.derive? (analysis.words input) = some results →
        results.map WordResult.word = analysis.words input ∧
        ∀ result ∈ results, result.IsRightFor g := by
  rw [ofText] at h
  split at h
  · next g hg =>
    have hplain := Grammar.isPlain_of_ofText hg
    have htables := hasTablesOf_of_ofGrammar hplain h
    refine ⟨g, hg, htables.grammar_eq, ?_, ?_⟩
    · rw [derive?, Option.map_eq_none_iff]
      exact htables.parser?_eq_none_iff hplain
    · intro results hresults
      obtain ⟨parser, hparser, rfl⟩ := Option.map_eq_some_iff.mp hresults
      refine ⟨?_, ?_⟩
      · rw [List.map_map]
        exact List.map_id'' (fun _ => rfl) _
      · intro result hresult
        obtain ⟨word, hword, rfl⟩ := List.mem_map.mp hresult
        apply (htables.isExactFor hplain hparser).isRightFor
        rintro line tokens rfl
        exact Word.endOfInput_not_mem hword
  · contradiction

/-- With the LALR(1) table alone, `a b` is derived, `a` is not, and `c` is no terminal. -/
theorem derive?_words_right_nested :
    ∃ analysis results,
      ofText "S -> a S b | epsilon\n" ⟨false, false, false, true, false, false⟩ = .ok analysis ∧
      analysis.derive? (analysis.words "a b\n\na\na c\n") = some results ∧
      results.map (fun result => result.tree.isSome) = [true, false, false] ∧
      ∀ result ∈ results, result.IsRightFor analysis.grammar := by
  have hcomputed : (ofText "S -> a S b | epsilon\n"
      ⟨false, false, false, true, false, false⟩).toOption.map (fun analysis =>
        (analysis.derive? (analysis.words "a b\n\na\na c\n")).map fun results =>
          results.map fun result => result.tree.isSome) = some (some [true, false, false]) := by
    decide +kernel
  obtain ⟨analysis, hanalysis, hderived⟩ := exists_of_map_toOption hcomputed
  obtain ⟨results, hresults, htrees⟩ := Option.map_eq_some_iff.mp hderived
  obtain ⟨g, -, rfl, -, hright⟩ := derive?_words_right hanalysis
  exact ⟨analysis, results, hanalysis, hresults, htrees, (hright results hresults).2⟩

end Analysis

end GrammarAnalysis

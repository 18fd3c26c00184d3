import GrammarAnalysis.Proofs.ShiftReduce.ItemAutomaton
import GrammarAnalysis.Proofs.ShiftReduce.Merged
import GrammarAnalysis.Proofs.ShiftReduce.Soundness
import GrammarAnalysis.Proofs.ShiftReduce.StepBound

/-!
# Correctness of the shift-reduce parsers

The tables of all three kinds follow the items of an automaton, so what has been
proved of such tables holds of them: a deterministic table answers every word of
the language with its rightmost derivation, and whatever a table answers, with
or without conflicts, is a rightmost derivation of the word.
-/

namespace GrammarAnalysis

open ParseTree

variable {g : Grammar}

/-- The tables of a grammar are those of its augmentation. -/
theorem Grammar.parseTable?_eq {a : Grammar} (haccept : g.withAcceptRule? = some a)
    (kind : TableKind) :
    g.parseTable? kind = some (match kind with
      | .slr1 => .slr1 a
      | .lr1 => .lr1 a a.canonicalAutomaton
      | .lalr1 => .lalr1 a a.canonicalAutomaton) := by
  rw [parseTable?, haccept]
  cases kind <;> rfl

/-- Every plain grammar has a table of each kind, and it follows the items of an automaton. -/
theorem Grammar.IsPlain.exists_drives (hg : g.IsPlain) (kind : TableKind) :
    ∃ a table, ∃ A : LRAutomaton a, g.IsAugmentation a ∧ g.parseTable? kind = some table ∧
      A.Drives table := by
  obtain ⟨a, haccept, h⟩ := hg.exists_isAugmentation
  cases kind with
  | slr1 =>
      exact ⟨a, _, ItemAutomaton.toLRAutomaton h, h, parseTable?_eq haccept .slr1,
        ItemAutomaton.drives_slr1 h⟩
  | lr1 =>
      exact ⟨a, _, CanonicalAutomaton.toLRAutomaton h, h, parseTable?_eq haccept .lr1,
        CanonicalAutomaton.drives_lr1 h⟩
  | lalr1 =>
      exact ⟨a, _, CanonicalAutomaton.toMergedLRAutomaton h, h, parseTable?_eq haccept .lalr1,
        CanonicalAutomaton.drives_lalr1 h⟩

/-! ## Completeness -/

namespace LRAutomaton

variable {a : Grammar} {A : LRAutomaton a} {table : ParseTable} {word : List TerminalId}

/-- A deterministic table answers a word with any rightmost derivation of it. -/
theorem Drives.parse_eq_derived (hd : A.Drives table) (h : g.IsAugmentation a)
    (hdet : table.isDeterministic = true) {ids : List RuleId}
    (hids : g.IsDerivationOf ⟨.rightmost, ids⟩ word) :
    table.parse word = some (.derived ⟨.rightmost, ids⟩) := by
  obtain ⟨tree, hroot, hrules, rfl⟩ := Grammar.DerivesBy.exists_tree hids
  obtain ⟨last, hreach, hstop⟩ := hd.accepts_tree hdet h hrules hroot
  exact (hd.isBounded h).parse_eq_some_iff.mpr (exists_runSteps_of_reaches hreach hstop)

/-- A derivation that a table answers with is found in a tree of the start symbol. -/
theorem Drives.exists_tree_of_parse (hd : A.Drives table) (h : g.IsAugmentation a)
    (hend : endOfInput ∉ word) {derivation : Derivation}
    (hparse : table.parse word = some (.derived derivation)) :
    derivation.order = .rightmost ∧ ∃ tree, tree.symbol = .nonterminal g.start ∧
      RulesOf g .rightmost [tree] derivation.rules ∧ tree.leaves = word := by
  obtain ⟨last, hreach, hstop⟩ := reaches_of_runSteps hparse
  obtain ⟨trees, hread⟩ := HasRead.of_reaches hd h hreach ⟨[], hasRead_initial A word⟩
  exact hread.of_stop hd h hend hstop

end LRAutomaton

/-- For every grammar that is read from text there are tables of all kinds.  A
deterministic one answers a word with any rightmost derivation of it; so it
accepts every word of the language, and no word has two rightmost derivations. -/
theorem Grammar.exists_complete_parseTable {text : String} (hg : Grammar.ofText text = .ok g)
    (kind : TableKind) :
    ∃ table, g.parseTable? kind = some table ∧ (table.isDeterministic = true →
      ∀ word,
        (∀ ids, g.IsDerivationOf ⟨.rightmost, ids⟩ word →
          table.parse word = some (.derived ⟨.rightmost, ids⟩)) ∧
        (g.HasWord word → ∃ ids, table.parse word = some (.derived ⟨.rightmost, ids⟩)) ∧
        ∀ ids ids', g.IsDerivationOf ⟨.rightmost, ids⟩ word →
          g.IsDerivationOf ⟨.rightmost, ids'⟩ word → ids = ids') := by
  obtain ⟨a, table, A, h, htable, hd⟩ := (isPlain_of_ofText hg).exists_drives kind
  refine ⟨table, htable, fun hdet word => ⟨?_, ?_, ?_⟩⟩
  · intro ids hids
    exact hd.parse_eq_derived h hdet hids
  · intro hword
    obtain ⟨ids, hids⟩ := hword.exists_derivesBy .rightmost
    exact ⟨ids, hd.parse_eq_derived h hdet hids⟩
  · intro ids ids' hids hids'
    have hsame := hd.parse_eq_derived h hdet hids
    rw [hd.parse_eq_derived h hdet hids'] at hsame
    simpa [eq_comm] using hsame

/-- The word `a b` has the one rightmost derivation that the SLR(1) table answers with. -/
theorem Grammar.exists_complete_parseTable_nested :
    ∃ g table, Grammar.ofText "S -> a S b | epsilon\n" = .ok g ∧
      g.parseTable? .slr1 = some table ∧ table.isDeterministic = true ∧
      g.IsDerivationOf ⟨.rightmost, [1, 2]⟩ [1, 2] ∧
      table.parse [1, 2] = some (.derived ⟨.rightmost, [1, 2]⟩) := by
  have hcomputed : (Grammar.ofText "S -> a S b | epsilon\n").toOption.map (fun g =>
      ((g.parseTable? .slr1).map ParseTable.isDeterministic, g.rules.get? 1, g.rules.get? 2,
        g.start)) =
      some (some true, some ⟨1, [.terminal 1, .nonterminal 1, .terminal 2]⟩, some ⟨1, []⟩, 1) := by
    decide +kernel
  obtain ⟨g, hg, hcomputed⟩ := Grammar.exists_of_ofText hcomputed
  simp only [Prod.mk.injEq] at hcomputed
  obtain ⟨hdet, hfirst, hsecond, hstart⟩ := hcomputed
  obtain ⟨table, htable, hcomplete⟩ := Grammar.exists_complete_parseTable hg .slr1
  rw [htable, Option.map_some, Option.some.injEq] at hdet
  have hderived : g.IsDerivationOf ⟨.rightmost, [1, 2]⟩ [1, 2] := by
    rw [Grammar.IsDerivationOf, hstart]
    exact .cons (.rightmost hfirst [] []) (.cons (.rightmost hsecond [.terminal 1] [2]) (.nil _))
  exact ⟨g, table, hg, htable, hdet, hderived, (hcomplete hdet [1, 2]).1 [1, 2] hderived⟩

/-! ## Soundness -/

/-- For every grammar that is read from text there are tables of all kinds.  If a
table answers a word without the end of input with a derivation, conflicts or
not, then the rules of the derivation are rules of the grammar other than the
reserved one, they derive the word from the start symbol by rightmost steps, and
they rebuild a parse tree of the start symbol with the word at its leaves. -/
theorem Grammar.exists_sound_parseTable {text : String} (hg : Grammar.ofText text = .ok g)
    (kind : TableKind) :
    ∃ table, g.parseTable? kind = some table ∧
      ∀ word derivation, endOfInput ∉ word → table.parse word = some (.derived derivation) →
        derivation.order = .rightmost ∧
        (∀ id ∈ derivation.rules, id ≠ acceptRule ∧ id ∈ g.rules.keys) ∧
        g.IsDerivationOf derivation word ∧
        ∃ tree, ParseTree.ofDerivation? table.grammar derivation = some tree ∧
          IsTreeOf g tree ∧ tree.symbol = .nonterminal g.start ∧ tree.leaves = word := by
  obtain ⟨a, table, A, h, htable, hd⟩ := (isPlain_of_ofText hg).exists_drives kind
  refine ⟨table, htable, fun word derivation hend hparse => ?_⟩
  obtain ⟨horder, tree, hroot, hrules, hleaves⟩ := hd.exists_tree_of_parse h hend hparse
  obtain ⟨order, ids⟩ := derivation
  obtain rfl : order = .rightmost := horder
  refine ⟨rfl, ?_, ?_, tree, ?_, ?_, hroot, hleaves⟩
  · intro id hid
    obtain ⟨rule, hrule⟩ := hrules.exists_rule id hid
    exact ⟨h.isPlain.ne_acceptRule hrule, OrderedMap.mem_keys_of_get? hrule⟩
  · have hderives := hrules.derivesBy
    rw [hroot, hleaves] at hderives
    exact hderives
  · cases tree with
    | leaf t => simp [symbol] at hroot
    | node n children =>
        rw [hd.grammar_eq]
        exact (h.rulesOf hrules).ofDerivation?_eq
  · exact hrules.isTreeOf tree (List.mem_singleton.mpr rfl)

/-- The LALR(1) table of an ambiguous grammar answers `a a` with a derivation of it. -/
theorem Grammar.exists_sound_parseTable_ambiguous :
    ∃ g table, Grammar.ofText "S -> S S | a\n" = .ok g ∧
      g.parseTable? .lalr1 = some table ∧ table.isDeterministic = false ∧
      table.parse [1, 1] = some (.derived ⟨.rightmost, [1, 2, 2]⟩) ∧
      g.IsDerivationOf ⟨.rightmost, [1, 2, 2]⟩ [1, 1] := by
  have hcomputed : (Grammar.ofText "S -> S S | a\n").toOption.map (fun g =>
      ((g.parseTable? .lalr1).map ParseTable.isDeterministic,
        (g.parseTable? .lalr1).bind (·.parse [1, 1]))) =
      some (some false, some (.derived ⟨.rightmost, [1, 2, 2]⟩)) := by decide +kernel
  obtain ⟨g, hg, hcomputed⟩ := Grammar.exists_of_ofText hcomputed
  obtain ⟨hdet, hanswer⟩ := Prod.mk.inj hcomputed
  obtain ⟨table, htable, hsound⟩ := Grammar.exists_sound_parseTable hg .lalr1
  rw [htable, Option.map_some, Option.some.injEq] at hdet
  rw [htable, Option.bind_some] at hanswer
  have hend : endOfInput ∉ [1, 1] := by decide
  exact ⟨g, table, hg, htable, hdet, hanswer, (hsound [1, 1] _ hend hanswer).2.2.1⟩

end GrammarAnalysis

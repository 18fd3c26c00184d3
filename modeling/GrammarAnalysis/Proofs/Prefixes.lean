import GrammarAnalysis.Proofs.Derivation.Completion
import GrammarAnalysis.Proofs.Lookahead.Nullable
import GrammarAnalysis.Proofs.Predictive.Reading
import GrammarAnalysis.Proofs.ShiftReduce.Correctness

/-!
# Correct prefixes

If every nonterminal derives a word, no parser reads beyond the first error:
whenever it consumes a token, what it has read by then begins a word of the
language.  This does not depend on conflicts, since a parser that takes the
first entry of a cell still follows the grammar, and a reduction on a wrong
lookahead reads nothing.

* The predictive parser derives what it has read, followed by its stack.
* A shift-reduce parser has a forest over what it has read, and the item that
  expects the next token tells how to complete the roots of the forest.
-/

namespace GrammarAnalysis

open ParseTree

variable {g a : Grammar}

/-- Whether every step of the parser that goes on either applies a rule and leaves the
input as it is, or consumes the next token, with which what has been read of the word
begins a word of the language. -/
def Grammar.ReadsPrefixes {Configuration : Type} (g : Grammar)
    (step : Configuration → StepResult Configuration) (input : Configuration → List TerminalId)
    (rules : Configuration → List RuleId) (word : List TerminalId) (first : Configuration) :
    Prop :=
  ∀ state next, Reaches step first state → step state = .next next →
    (input next = input state ∧ ∃ id, rules next = id :: rules state) ∨
    ∃ read t, word = read ++ t :: input next ∧ input state = t :: input next ∧
      rules next = rules state ∧ g.HasPrefix (read ++ [t])

/-- A token that is consumed begins, with what has been read before, a word of the language. -/
theorem Grammar.ReadsPrefixes.hasPrefix {Configuration : Type}
    {step : Configuration → StepResult Configuration} {input : Configuration → List TerminalId}
    {rules : Configuration → List RuleId} {word : List TerminalId}
    {first state next : Configuration} (h : g.ReadsPrefixes step input rules word first)
    (hreach : Reaches step first state) (hstep : step state = .next next)
    {read : List TerminalId} {t : TerminalId} (hword : word = read ++ t :: input next)
    (hconsumed : input next ≠ input state) : g.HasPrefix (read ++ [t]) := by
  rcases h state next hreach hstep with ⟨hsame, -⟩ | ⟨read', t', hword', -, -, hbegins⟩
  · exact absurd hsame hconsumed
  · rw [hword, List.append_cons read, List.append_cons read'] at hword'
    rw [List.append_cancel_right hword']
    exact hbegins

/-! ## The predictive parser -/

/-- With or without a conflict in its table, the predictive parser matches a token only
if a word of the language goes on with it. -/
theorem PredictiveTable.readsPrefixes (hg : g.IsPlain) (hcomplete : g.IsCompletable)
    (word : List TerminalId) :
    g.ReadsPrefixes (ofGrammar g).step PredictiveState.input PredictiveState.applied word
      ((ofGrammar g).initial word) := by
  intro state next hreach hstep
  have hinitial : HasMatched g word ((ofGrammar g).initial word) := ⟨[], rfl, .nil _⟩
  obtain ⟨read, hword, hderives⟩ := hinitial.of_reaches hg hreach
  obtain ⟨stack, input, applied⟩ := state
  rcases step_eq_next hg hstep with
    ⟨t, below, rest, -, rfl, rfl, rfl⟩ | ⟨id, rule, below, -, -, rfl, rfl⟩
  · right
    refine ⟨read, t, hword, rfl, rfl, ?_⟩
    apply hcomplete.hasPrefix
    rw [sentence_append, List.append_assoc]
    exact hderives.derives
  · exact Or.inl ⟨rfl, id, rfl⟩

/-! ## Shift-reduce parsers -/

namespace LRAutomaton

variable {A : LRAutomaton a} {table : ParseTable}

/-- The symbols of a path and what an item at its end still expects begin a sentential form. -/
theorem exists_sententialForm (h : g.IsAugmentation a) {symbols : List Symbol} {s : StateId}
    {below : List StateId} {item : Item} (path : Climbs A.states [0] symbols (s :: below))
    (hitem : HoldsAt A.states s item) :
    ∃ after, g.Derives [.nonterminal g.start]
      (symbols ++ ((a.bodyOf item).drop item.marker ++ after)) := by
  refine A.path_induction (motive := fun symbols _ item =>
    ∃ after, g.Derives [.nonterminal g.start]
      (symbols ++ ((a.bodyOf item).drop item.marker ++ after))) ?_ ?_ ?_ path hitem
  · rw [@Grammar.bodyOf_eq a (Item.initial acceptRule) _ h.get?_accept]
    exact ⟨[], .refl _⟩
  · intro symbols s below item j n _ _ ih hnext hj
    obtain ⟨after, hform⟩ := ih
    exact ⟨_, derives_of_spawn h hnext hj hform⟩
  · intro symbols s below item symbol next _ _ ih hnext _
    obtain ⟨after, hform⟩ := ih
    rw [Grammar.drop_marker_of_next? hnext] at hform
    refine ⟨after, ?_⟩
    rw [List.append_assoc]
    exact hform

/-- A token that the current state shifts goes on with what has been read. -/
theorem HasRead.hasPrefix (hd : A.Drives table) (h : g.IsAugmentation a)
    (hcomplete : g.IsCompletable) {word : List TerminalId} {s target : StateId}
    {below : List StateId} {input : List TerminalId} {reduced : List RuleId}
    {trees : List ParseTree} (hread : HasRead g A word ⟨s :: below, input, reduced⟩ trees)
    {t : TerminalId} (haction : table.action? s t = some (.shift target)) :
    g.HasPrefix (leavesOfAll trees.reverse ++ [t]) := by
  cases hd.calls_of_action? haction with
  | shift hitem hnext _ =>
      obtain ⟨after, hform⟩ := exists_sententialForm h hread.path hitem
      rw [Grammar.drop_marker_of_next? hnext] at hform
      have hroots : g.Derives (trees.reverse.map symbol) (sentence (leavesOfAll trees.reverse)) :=
        hread.rules.spells.derives
      apply hcomplete.hasPrefix
      rw [sentence_append, List.append_assoc]
      exact hform.trans (hroots.append_right _)

/-- With or without conflicts in its table, a shift-reduce parser shifts a token only if
a word of the language goes on with it. -/
theorem Drives.readsPrefixes (hd : A.Drives table) (h : g.IsAugmentation a)
    (hcomplete : g.IsCompletable) (word : List TerminalId) :
    g.ReadsPrefixes table.step ShiftReduceState.input ShiftReduceState.reduced word
      (ParseTable.initial word) := by
  intro state next hreach hstep
  obtain ⟨trees, hread⟩ := HasRead.of_reaches hd h hreach ⟨[], hasRead_initial A word⟩
  obtain ⟨stack, input, reduced⟩ := state
  rcases ParseTable.step_eq_next hstep with
    ⟨hreduces, hinput⟩ | ⟨s, below, target, rfl, haction, rfl⟩
  · left
    obtain ⟨id, hreduced⟩ := hreduces.step_eq
    rw [hreduced input reduced rfl, StepResult.next.injEq] at hstep
    rw [← hstep]
    exact ⟨rfl, id, rfl⟩
  · right
    cases input with
    | nil => exact absurd haction (hd.isBounded h).not_shift
    | cons t rest =>
        exact ⟨_, t, hread.leaves.symm, rfl, rfl, hread.hasPrefix hd h hcomplete haction⟩

end LRAutomaton

/-! ## All parsers -/

/-- For every grammar that is read from text, and in which every nonterminal derives a
word, the predictive parser and the shift-reduce parsers of all kinds have the correct
prefix property on every word, whether their tables have conflicts or not. -/
theorem Grammar.exists_prefix_correct_tables {text : String} (hg : ofText text = .ok g)
    (hproductive : g.IsProductive) :
    (∀ word, g.ReadsPrefixes (PredictiveTable.ofGrammar g).step PredictiveState.input
      PredictiveState.applied word ((PredictiveTable.ofGrammar g).initial word)) ∧
    ∀ kind, ∃ table, g.parseTable? kind = some table ∧
      ∀ word, g.ReadsPrefixes table.step ShiftReduceState.input ShiftReduceState.reduced word
        (ParseTable.initial word) := by
  have hplain := isPlain_of_ofText hg
  have hcomplete := hproductive.isCompletable hplain.isClosed
  refine ⟨PredictiveTable.readsPrefixes hplain hcomplete, fun kind => ?_⟩
  obtain ⟨a, table, A, h, htable, hd⟩ := hplain.exists_drives kind
  exact ⟨table, htable, hd.readsPrefixes h hcomplete⟩

/-- The tables of the dangling `e` have conflicts.  The LALR(1) parser shifts the first token
of `i e`, which begins a word of the language, and the predictive parser reads only
prefixes as well. -/
theorem Grammar.exists_prefix_correct_tables_dangling :
    ∃ g table next, ofText "S -> i S e S | i S | a\n" = .ok g ∧ g.IsProductive ∧
      (PredictiveTable.ofGrammar g).isLL1 = false ∧
      g.ReadsPrefixes (PredictiveTable.ofGrammar g).step PredictiveState.input
        PredictiveState.applied [1, 2] ((PredictiveTable.ofGrammar g).initial [1, 2]) ∧
      g.parseTable? .lalr1 = some table ∧ table.isDeterministic = false ∧
      table.step (ParseTable.initial [1, 2]) = .next next ∧ next.input = [2] ∧
      g.HasPrefix [1] := by
  have hcomputed : (ofText "S -> i S e S | i S | a\n").toOption.map (fun g =>
      (decide g.IsProductive, (PredictiveTable.ofGrammar g).isLL1,
        (g.parseTable? .lalr1).map ParseTable.isDeterministic,
        (g.parseTable? .lalr1).bind fun table =>
          match table.step (ParseTable.initial [1, 2]) with
          | .next next => some next.input
          | .stop _ => none)) =
      some (true, false, some false, some [2]) := by decide +kernel
  obtain ⟨g, hg, hcomputed⟩ := exists_of_ofText hcomputed
  simp only [Prod.mk.injEq, decide_eq_true_eq] at hcomputed
  obtain ⟨hproductive, hll1, hdet, hinput⟩ := hcomputed
  obtain ⟨hpredictive, htables⟩ := exists_prefix_correct_tables hg hproductive
  obtain ⟨table, htable, hreads⟩ := htables .lalr1
  rw [htable, Option.map_some, Option.some.injEq] at hdet
  rw [htable, Option.bind_some] at hinput
  cases hstep : table.step (ParseTable.initial [1, 2]) with
  | stop outcome => simp [hstep] at hinput
  | next next =>
      rw [hstep, Option.some.injEq] at hinput
      refine ⟨g, table, next, hg, hproductive, hll1, hpredictive [1, 2], htable, hdet, hstep,
        hinput, ?_⟩
      have hword : [1, 2] = [] ++ 1 :: next.input := by
        rw [hinput]
        rfl
      have hconsumed : next.input ≠ (ParseTable.initial [1, 2]).input := by
        rw [hinput]
        simp [ParseTable.initial]
      exact (hreads [1, 2]).hasPrefix (.refl _) hstep hword hconsumed

end GrammarAnalysis

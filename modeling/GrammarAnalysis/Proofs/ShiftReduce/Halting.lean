import GrammarAnalysis.Proofs.ShiftReduce.Continuation
import GrammarAnalysis.Proofs.ShiftReduce.Correctness

/-!
# When a deterministic table stops

A deterministic table does not stop on every word.  With a nonterminal that is
reached but derives no word, the parser can reduce for ever; tables of all kinds
do so for some grammar (`Grammar.LoopsOn`).

If every sentential form derives a word, the parser does stop.  What it does
between two shifts depends on the next token only; by
`LRAutomaton.Drives.exists_continuation` it does the same while it reads some
word of the language, and there it stops.
-/

namespace GrammarAnalysis

open ParseTree

namespace ParseTable

variable {table : ParseTable}

/-! ## Runs in front of the same token -/

theorem firstTerminal_append_congr {rest other : List TerminalId}
    (h : Grammar.firstTerminal rest = Grammar.firstTerminal other) (front : List TerminalId) :
    Grammar.firstTerminal (front ++ rest) = Grammar.firstTerminal (front ++ other) := by
  cases front with
  | nil => exact h
  | cons t front => rfl

/-- A step that goes on makes a reduction, the same in front of all inputs with
this next token, or it shifts the next token. -/
theorem IsBounded.step_cases (hb : table.IsBounded) {stack : List StateId}
    {input : List TerminalId} {reduced : List RuleId} {state : ShiftReduceState}
    (h : table.step ⟨stack, input, reduced⟩ = .next state) :
    (∃ next id, state = ⟨next, input, id :: reduced⟩ ∧
      ∀ other reduced', Grammar.firstTerminal other = Grammar.firstTerminal input →
        table.step ⟨stack, other, reduced'⟩ = .next ⟨next, other, id :: reduced'⟩) ∨
    ∃ next t rest, input = t :: rest ∧ state = ⟨next, rest, reduced⟩ ∧
      ∀ other reduced',
        table.step ⟨stack, t :: other, reduced'⟩ = .next ⟨next, other, reduced'⟩ := by
  rcases step_eq_next h with ⟨hreduces, -⟩ | ⟨s, below, next, rfl, haction, rfl⟩
  · left
    obtain ⟨id, hsteps⟩ := hreduces.step_eq
    have hstep := hsteps input reduced rfl
    rw [h, StepResult.next.injEq] at hstep
    exact ⟨state.stack, id, hstep, hsteps⟩
  · right
    cases input with
    | nil => exact absurd haction hb.not_shift
    | cons t rest =>
        refine ⟨next :: s :: below, t, rest, rfl, rfl, fun other reduced' => ?_⟩
        have haction' : table.action? s (Grammar.firstTerminal (t :: other)) =
            some (.shift next) := haction
        exact step_eq_shift haction' below reduced'

theorem IsBounded.length_input_le (hb : table.IsBounded) {first last : ShiftReduceState}
    (h : Reaches table.step first last) : last.input.length ≤ first.input.length := by
  induction h with
  | refl => exact Nat.le_refl _
  | next here _ ih =>
      refine ih.trans ?_
      rcases hb.step_cases here with ⟨next, id, rfl, -⟩ | ⟨next, t, rest, hinput, rfl, -⟩
      · exact Nat.le_refl _
      · rw [hinput]
        exact Nat.le_succ _

/-- Every step makes at most one reduction. -/
theorem IsBounded.length_reduced_le (hb : table.IsBounded) {first last : ShiftReduceState}
    (h : Reaches table.step first last) {bound : Nat}
    (hstops : StopsWithin table.step bound first) :
    last.reduced.length ≤ first.reduced.length + bound := by
  induction h generalizing bound with
  | refl => exact Nat.le_add_right _ _
  | @next first second last here _ ih =>
      obtain ⟨outcome, hrun⟩ := hstops
      cases bound with
      | zero => simp [runSteps] at hrun
      | succ bound =>
          rw [runSteps, here] at hrun
          have hlast := ih ⟨outcome, hrun⟩
          have hsecond : second.reduced.length ≤ first.reduced.length + 1 := by
            rcases hb.step_cases here with ⟨next, id, rfl, -⟩ | ⟨next, t, rest, -, rfl, -⟩
            · exact Nat.le_refl _
            · exact Nat.le_succ _
          omega

/-- What comes after the next token can be exchanged as long as it is not read. -/
theorem IsBounded.reaches_exchange (hb : table.IsBounded) {rest other : List TerminalId}
    (hsame : Grammar.firstTerminal other = Grammar.firstTerminal rest)
    {first last : ShiftReduceState} (h : Reaches table.step first last)
    {front : List TerminalId} (hfirst : first.input = front ++ rest) (hlast : last.input = rest) :
    Reaches table.step ⟨first.stack, front ++ other, first.reduced⟩
      ⟨last.stack, other, last.reduced⟩ := by
  induction h generalizing front with
  | refl =>
      obtain rfl : front = [] := by
        rw [hlast] at hfirst
        exact List.self_eq_append_left.mp hfirst
      exact .refl _
  | @next first second last here reached ih =>
      rcases hb.step_cases here with ⟨next, id, rfl, hsteps⟩ | ⟨next, t, tail, hinput, rfl, hsteps⟩
      · have hstep := hsteps (front ++ other) first.reduced (by
          rw [hfirst]
          exact firstTerminal_append_congr hsame front)
        exact .next hstep (ih hfirst hlast)
      · cases front with
        | nil =>
            -- the rest is not read, since it is there at the end
            have hshorter := hb.length_input_le reached
            rw [hlast, ← List.nil_append rest, ← hfirst, hinput] at hshorter
            exact absurd hshorter (Nat.not_succ_le_self _)
        | cons u front =>
            rw [hinput, List.cons_append, List.cons.injEq] at hfirst
            obtain ⟨rfl, htail⟩ := hfirst
            exact .next (hsteps (front ++ other) first.reduced) (ih htail hlast)

/-- In front of each of finitely many tokens, the runs that stop in the end make a
limited number of reductions before they read on. -/
theorem IsBounded.exists_reduced_bound (hb : table.IsBounded) (read ts : List TerminalId) :
    ∃ most, ∀ rest stack reduced, Grammar.firstTerminal rest ∈ ts →
      (∃ bound, StopsWithin table.step bound (initial (read ++ rest))) →
      Reaches table.step (initial (read ++ rest)) ⟨stack, rest, reduced⟩ →
      reduced.length ≤ most := by
  induction ts with
  | nil => exact ⟨0, fun rest stack reduced hmem => absurd hmem List.not_mem_nil⟩
  | cons t ts ih =>
      obtain ⟨most, hmost⟩ := ih
      by_cases hexists : ∃ rest, Grammar.firstTerminal rest = t ∧
          ∃ bound, StopsWithin table.step bound (initial (read ++ rest))
      · obtain ⟨other, hother, bound, hstops⟩ := hexists
        refine ⟨max most bound, fun rest stack reduced hmem hrest hreach => ?_⟩
        rcases List.mem_cons.mp hmem with hhere | hthere
        · have hsame := hother.trans hhere.symm
          have hexchanged : Reaches table.step (initial (read ++ other)) ⟨stack, other, reduced⟩ :=
            hb.reaches_exchange hsame hreach rfl rfl
          have hlength : reduced.length ≤ 0 + bound := hb.length_reduced_le hexchanged hstops
          rw [Nat.zero_add] at hlength
          exact hlength.trans (Nat.le_max_right _ _)
        · exact (hmost rest stack reduced hthere hrest hreach).trans (Nat.le_max_left _ _)
      · refine ⟨most, fun rest stack reduced hmem hrest hreach => ?_⟩
        rcases List.mem_cons.mp hmem with hhere | hthere
        · exact absurd ⟨rest, hhere, hrest⟩ hexists
        · exact hmost rest stack reduced hthere hrest hreach

end ParseTable

/-! ## Halting -/

namespace LRAutomaton

variable {g a : Grammar} {A : LRAutomaton a} {table : ParseTable}

/-- A deterministic table stops from every configuration, if every sentential form
derives a word.  The induction is on the input that is left, and between two
shifts on the reductions that can still be made. -/
theorem Drives.stops (hd : A.Drives table) (hdet : table.isDeterministic = true)
    (h : g.IsAugmentation a) (hcomplete : g.IsCompletable) {word : List TerminalId}
    {state : ShiftReduceState} {trees : List ParseTree} (hread : HasRead g A word state trees) :
    ∃ bound, StopsWithin table.step bound state := by
  have hb := hd.isBounded h
  induction hlength : state.input.length using Nat.strongRecOn generalizing state trees with
  | ind length ihInput =>
      obtain ⟨most, hmost⟩ :=
        hb.exists_reduced_bound (leavesOfAll trees.reverse) g.terminals.keys
      have hphase : ∀ {state' trees'}, HasRead g A word state' trees' →
          state'.input = state.input → ∃ bound, StopsWithin table.step bound state' := by
        intro state' trees' hread' hinput
        induction hleft : most + 1 - state'.reduced.length using Nat.strongRecOn
          generalizing state' trees' with
        | ind left ihLeft =>
            cases hstep : table.step state' with
            | stop outcome => exact ⟨1, .of_stop hstep 0⟩
            | next next =>
                -- nothing is read in the phase, so its limit is the one for the same word
                have hsame : leavesOfAll trees'.reverse = leavesOfAll trees.reverse := by
                  have hleaves := hread'.leaves.trans hread.leaves.symm
                  rw [hinput] at hleaves
                  exact List.append_cancel_right hleaves
                obtain ⟨rest, hdeclared, hstops, hreach⟩ :=
                  hd.exists_continuation hdet h hcomplete hread' hstep
                rw [hsame] at hstops hreach
                have hfew := hmost rest _ _ hdeclared hstops hreach
                obtain ⟨trees'', hread''⟩ := hread'.step hd h hstep
                have hlater : ∃ bound, StopsWithin table.step bound next := by
                  obtain ⟨stack, input, reduced⟩ := state'
                  rcases hb.step_cases hstep with
                    ⟨stack', id, rfl, -⟩ | ⟨stack', t, rest', rfl, rfl, -⟩
                  · refine ihLeft _ ?_ hread'' hinput rfl
                    simp only [List.length_cons] at hleft hfew ⊢
                    omega
                  · refine ihInput _ ?_ hread'' rfl
                    rw [← hlength, ← hinput]
                    exact Nat.lt_succ_self _
                obtain ⟨bound, hbound⟩ := hlater
                exact ⟨_, (ReachesWithin.next hstep (.refl 0 _)).stopsWithin hbound⟩
      exact hphase hread rfl

end LRAutomaton

/-! ## Runs without an end -/

namespace ParseTable

/-- Whether a step leads from each of the listed stacks and inputs to one of them. -/
def staysWithin (table : ParseTable) (listed : List (List StateId × List TerminalId)) : Bool :=
  listed.all fun entry =>
    match table.step ⟨entry.1, entry.2, []⟩ with
    | .next state => listed.contains (state.stack, state.input)
    | .stop _ => false

/-- A step does not look at the reductions made before. -/
theorem exists_step_eq_next {table : ParseTable} {stack : List StateId}
    {input : List TerminalId} {reduced : List RuleId} {state : ShiftReduceState}
    (h : table.step ⟨stack, input, reduced⟩ = .next state) (reduced' : List RuleId) :
    ∃ reduced'', table.step ⟨stack, input, reduced'⟩ =
      .next ⟨state.stack, state.input, reduced''⟩ := by
  rcases step_eq_next h with ⟨hreduces, hinput⟩ | ⟨s, below, next, rfl, haction, rfl⟩
  · obtain ⟨id, hsteps⟩ := hreduces.step_eq
    exact ⟨id :: reduced', by rw [hinput, hsteps input reduced' rfl]⟩
  · exact ⟨reduced', step_eq_shift haction below reduced'⟩

/-- A parser that stays within finitely many stacks and inputs never stops. -/
theorem runSteps_eq_none_of_staysWithin {table : ParseTable}
    {listed : List (List StateId × List TerminalId)} (h : table.staysWithin listed = true)
    (bound : Nat) {stack : List StateId} {input : List TerminalId}
    (hmem : (stack, input) ∈ listed) (reduced : List RuleId) :
    runSteps table.step bound ⟨stack, input, reduced⟩ = none := by
  induction bound generalizing stack input reduced with
  | zero => rfl
  | succ bound ih =>
      have hentry := List.all_eq_true.mp h (stack, input) hmem
      dsimp only at hentry
      cases hstep : table.step ⟨stack, input, []⟩ with
      | stop outcome => simp [hstep] at hentry
      | next state =>
          rw [hstep] at hentry
          obtain ⟨reduced', hstep'⟩ := exists_step_eq_next hstep reduced
          rw [runSteps, hstep']
          exact ih (List.contains_iff_mem.mp hentry) reduced'

end ParseTable

namespace Grammar

/-- Whether the table of a grammar is deterministic and never stops on the word,
which consists of terminals of the grammar other than the end of input. -/
def LoopsOn (text : String) (kind : TableKind) (word : List TerminalId) : Prop :=
  ∃ g table, Grammar.ofText text = .ok g ∧ g.parseTable? kind = some table ∧
    table.isDeterministic = true ∧ (∀ t ∈ word, t ∈ g.terminals.keys ∧ t ≠ endOfInput) ∧
    ∀ bound, table.run bound word = none

/-- Whether the listed stacks and inputs show that the table loops on the word. -/
def showsLoop (text : String) (kind : TableKind) (word : List TerminalId)
    (listed : List (List StateId × List TerminalId)) : Bool :=
  match Grammar.ofText text with
  | .error _ => false
  | .ok g =>
    match g.parseTable? kind with
    | none => false
    | some table =>
      table.isDeterministic && word.all (fun t => g.terminals.keys.contains t && t ≠ endOfInput) &&
        listed.contains ([0], word) && table.staysWithin listed

theorem loopsOn_of_showsLoop {text : String} {kind : TableKind} {word : List TerminalId}
    {listed : List (List StateId × List TerminalId)} (h : showsLoop text kind word listed = true) :
    LoopsOn text kind word := by
  rw [showsLoop] at h
  split at h
  · simp at h
  · next g hg =>
    split at h
    · simp at h
    · next table htable =>
      simp only [Bool.and_eq_true, List.all_eq_true, List.contains_iff_mem, decide_eq_true_eq] at h
      obtain ⟨⟨⟨hdet, hword⟩, hstart⟩, hstays⟩ := h
      refine ⟨g, table, hg, htable, hdet, hword, fun bound => ?_⟩
      exact ParseTable.runSteps_eq_none_of_staysWithin hstays bound hstart []

/-- Deterministic tables of all kinds loop on some words.  In both grammars a cycle
of rules `X -> Y` and `Y -> X` stands in front of a nonterminal that derives no
word.  So nothing else is done in front of the next token: in the first grammar
it only follows `X` in a rule that is not reached, in the second one the rules
that lead to it have no lookaheads. -/
theorem loopsOn_each_kind :
    LoopsOn "S -> X D\nX -> Y | b\nY -> X\nD -> D d\nZ -> X a\n" .slr1 [1, 3] ∧
    LoopsOn "S -> X D\nX -> Y | b\nY -> X\nD -> E G\nE -> F c\nF -> epsilon\nG -> G d\n"
      .lr1 [1, 2] ∧
    LoopsOn "S -> X D\nX -> Y | b\nY -> X\nD -> E G\nE -> F c\nF -> epsilon\nG -> G d\n"
      .lalr1 [1, 2] := by
  refine ⟨?_, ?_, ?_⟩
  · have hshown : showsLoop "S -> X D\nX -> Y | b\nY -> X\nD -> D d\nZ -> X a\n" .slr1 [1, 3]
        [([0], [1, 3]), ([4, 0], [3]), ([2, 0], [3]), ([3, 0], [3])] = true := by decide +kernel
    exact loopsOn_of_showsLoop hshown
  · have hshown : showsLoop
        "S -> X D\nX -> Y | b\nY -> X\nD -> E G\nE -> F c\nF -> epsilon\nG -> G d\n" .lr1 [1, 2]
        [([0], [1, 2]), ([4, 0], [2]), ([2, 0], [2]), ([3, 0], [2])] = true := by decide +kernel
    exact loopsOn_of_showsLoop hshown
  · have hshown : showsLoop
        "S -> X D\nX -> Y | b\nY -> X\nD -> E G\nE -> F c\nF -> epsilon\nG -> G d\n" .lalr1 [1, 2]
        [([0], [1, 2]), ([4, 0], [2]), ([2, 0], [2]), ([3, 0], [2])] = true := by decide +kernel
    exact loopsOn_of_showsLoop hshown

end Grammar

/-! ## Runs that stop -/

/-- For every grammar that is read from text there are tables of all kinds.  A
deterministic one answers every word if every sentential form of the grammar
derives a word; in any case it answers every word of the language. -/
theorem Grammar.exists_halting_parseTable {text : String} (hg : Grammar.ofText text = .ok g)
    (kind : TableKind) :
    ∃ table, g.parseTable? kind = some table ∧ (table.isDeterministic = true →
      ∀ word, g.IsCompletable ∨ g.HasWord word →
        ∃ outcome, table.parse word = some outcome) := by
  obtain ⟨a, table, A, h, htable, hd⟩ := (isPlain_of_ofText hg).exists_drives kind
  refine ⟨table, htable, fun hdet word hword => ?_⟩
  rcases hword with hcomplete | hword
  · obtain ⟨bound, outcome, hrun⟩ := hd.stops hdet h hcomplete (LRAutomaton.hasRead_initial A word)
    exact ⟨outcome, (hd.isBounded h).parse_eq_some_iff.mpr ⟨bound, hrun⟩⟩
  · obtain ⟨ids, hids⟩ := hword.exists_derivesBy .rightmost
    exact ⟨_, hd.parse_eq_derived h hdet hids⟩

/-- The nonterminal `C` of this grammar derives no word, but it is not reached; so
the table stops on `a c`, which is not a word of the language. -/
theorem Grammar.exists_halting_parseTable_rejected :
    ∃ g table, Grammar.ofText "S -> A b\nA -> a A | epsilon\nC -> C c\n" = .ok g ∧
      g.parseTable? .lalr1 = some table ∧ table.isDeterministic = true ∧ g.IsCompletable ∧
      ∃ outcome, table.parse [2, 3] = some outcome := by
  have hcomputed : (Grammar.ofText "S -> A b\nA -> a A | epsilon\nC -> C c\n").toOption.map
      (fun g => ((g.parseTable? .lalr1).map ParseTable.isDeterministic, g.rules.entries,
        g.start)) =
      some (some true, [(1, ⟨1, [.nonterminal 2, .terminal 1]⟩),
        (2, ⟨2, [.terminal 2, .nonterminal 2]⟩), (3, ⟨2, []⟩),
        (4, ⟨3, [.nonterminal 3, .terminal 3]⟩)], 1) := by decide +kernel
  obtain ⟨g, hg, hcomputed⟩ := Grammar.exists_of_ofText hcomputed
  simp only [Prod.mk.injEq] at hcomputed
  obtain ⟨hdet, hrules, hstart⟩ := hcomputed
  have hknown : ∀ {id rule}, g.rules.get? id = some rule ↔ (id, rule) ∈ g.rules.entries :=
    OrderedMap.get?_eq_some_iff
  rw [hrules] at hknown
  have hfirst : g.rules.get? 1 = some ⟨1, [.nonterminal 2, .terminal 1]⟩ := hknown.mpr (by simp)
  have hthird : g.rules.get? 3 = some ⟨2, []⟩ := hknown.mpr (by simp)
  have hvanish : g.Generates 2 [] := Grammar.Derives.of_rule hthird
  have hshort : g.Generates 1 [1] :=
    (Grammar.Derives.of_rule hfirst).trans (Grammar.Derives.append_right hvanish [.terminal 1])
  have hcomplete : g.IsCompletable := by
    apply isCompletable_of_reached fun n => n = 1 ∨ n = 2
    · exact Or.inl hstart
    · intro id rule hrule hhead n hn
      have hmem := hknown.mp hrule
      simp only [List.mem_cons, Prod.mk.injEq, List.not_mem_nil, or_false] at hmem
      rcases hmem with ⟨-, rfl⟩ | ⟨-, rfl⟩ | ⟨-, rfl⟩ | ⟨-, rfl⟩
      · right
        simpa using hn
      · right
        simpa using hn
      · simp at hn
      · simp at hhead
    · rintro n (rfl | rfl)
      · exact ⟨[1], hshort⟩
      · exact ⟨[], hvanish⟩
  obtain ⟨table, htable, hstops⟩ := Grammar.exists_halting_parseTable hg .lalr1
  rw [htable, Option.map_some, Option.some.injEq] at hdet
  exact ⟨g, table, hg, htable, hdet, hcomplete, hstops hdet [2, 3] (Or.inl hcomplete)⟩

end GrammarAnalysis

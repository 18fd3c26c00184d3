import GrammarAnalysis.Proofs.Derivation.Completion
import GrammarAnalysis.Proofs.Derivation.Runs
import GrammarAnalysis.Proofs.ShiftReduce.Soundness

/-!
# Continuing what has been read

If every sentential form derives a word, then whatever a parser with a
deterministic table has read begins a word of the language: an item of the
current state tells how to go on, and the parser comes through the same
configuration when it reads the whole word.  So none of its configurations
belongs only to runs without an end.

* `LRAutomaton.Continues` collects what an item at the end of a path promises.
* `LRAutomaton.Drives.exists_continuation` finds the word.
-/

namespace GrammarAnalysis

open ParseTree

namespace LRAutomaton

variable {g a : Grammar} {A : LRAutomaton a} {table : ParseTable}

/-! ## What an item promises -/

/-- What an item at the end of a path promises: the rest of its body can be
followed by `z` to complete a sentential form, and the parser that has a forest
over the path in front of what starts this rest reads the forest. -/
structure Continues (g : Grammar) (A : LRAutomaton a) (table : ParseTable)
    (symbols : List Symbol) (stack : List StateId) (item : Item) (z : List TerminalId) : Prop where
  looks : ∀ {s below}, stack = s :: below → A.looks s item (Grammar.firstTerminal z)
  derives : g.Derives [.nonterminal g.start]
    (symbols ++ ((a.bodyOf item).drop item.marker ++ sentence z))
  reaches : ∀ {trees ids rest}, trees.reverse.map symbol = symbols →
    RulesOf g .rightmost trees ids →
    a.StartsWith (Grammar.firstTerminal rest)
      ((a.bodyOf item).drop item.marker ++ [.terminal (Grammar.firstTerminal z)]) →
    Reaches table.step (ParseTable.initial (leavesOfAll trees.reverse ++ rest))
      ⟨stack, rest, ids⟩

theorem continues_start (h : g.IsAugmentation a) :
    Continues g A table [] [0] (Item.initial acceptRule) [] where
  looks := by
    intro s below hstack
    obtain ⟨rfl, -⟩ := List.cons.inj hstack
    exact A.looks_start
  derives := by
    rw [@Grammar.bodyOf_eq a (Item.initial acceptRule) _ h.get?_accept]
    exact .refl _
  reaches := by
    intro trees ids rest htrees hrules _
    obtain rfl : trees = [] := by simpa using htrees
    rw [rulesOf_nil_iff.mp hrules]
    exact .refl _

/-- A rule that is started by an item goes on as the item does behind its head. -/
theorem Continues.spawn (h : g.IsAugmentation a) (hcomplete : g.IsCompletable)
    {symbols : List Symbol} {s : StateId} {below : List StateId} {item j : Item}
    {n : NonterminalId} {z : List TerminalId}
    (hitem : Continues g A table symbols (s :: below) item z)
    (hnext : a.next? item = some (.nonterminal n)) (hj : j ∈ a.initialItems n) :
    ∃ z', Continues g A table symbols (s :: below) j z' := by
  obtain ⟨rule, hknown, hhead, hmarker⟩ := exists_rule_of_spawn h hnext hj
  have hrule := h.get?_of_get? hknown
  have hbody : (a.bodyOf j).drop j.marker = rule.body := by
    rw [hmarker, Grammar.bodyOf_eq hrule, List.drop_zero]
  have hexpand := derives_of_spawn h hnext hj hitem.derives
  rw [hbody] at hexpand
  obtain ⟨-, hback⟩ := Grammar.exists_word_of_append (hcomplete _ hexpand)
  obtain ⟨-, hback⟩ := Grammar.exists_word_of_append hback
  obtain ⟨⟨word, hword⟩, -⟩ := Grammar.exists_word_of_append hback
  have hstart := (h.derives hword).startsWith_firstTerminal z
  refine ⟨word ++ z, ?_, ?_, ?_⟩
  · intro s' below' hstack
    obtain ⟨rfl, -⟩ := List.cons.inj hstack
    exact A.looks_spawn (hitem.looks rfl) hnext hj hstart
  · rw [hbody, sentence_append]
    have hrest := (hword.append_right (sentence z)).append_left (symbols ++ rule.body)
    simp only [List.append_assoc] at hrest
    exact hexpand.trans hrest
  · intro trees ids rest htrees hrules hrest
    refine hitem.reaches htrees hrules ?_
    rw [hbody] at hrest
    rw [Grammar.drop_marker_of_next? hnext, ← hhead, List.cons_append]
    exact Grammar.startsWith_head_of_body hrule hrest hstart

/-- The rest of a body goes on as the body does. -/
theorem Continues.advance (hd : A.Drives table) (hdet : table.isDeterministic = true)
    (h : g.IsAugmentation a) {symbols : List Symbol} {s next : StateId} {below : List StateId}
    {item : Item} {symbol : Symbol} {z : List TerminalId}
    (hitem : Continues g A table symbols (s :: below) item z)
    (hnext : a.next? item = some symbol) (move : MovesTo A.states s symbol next) :
    Continues g A table (symbols ++ [symbol]) (next :: s :: below) item.advance z where
  looks := by
    intro s' below' hstack
    obtain ⟨rfl, -⟩ := List.cons.inj hstack
    exact A.looks_next (hitem.looks rfl) hnext move
  derives := by
    have hform := hitem.derives
    rw [Grammar.drop_marker_of_next? hnext] at hform
    rw [List.append_assoc]
    exact hform
  reaches := by
    intro trees ids rest htrees hrules hrest
    obtain ⟨front, last, hsplit, hfront, hlast⟩ := List.map_eq_append_iff.mp htrees
    obtain ⟨tree, rfl, hroot⟩ := List.map_eq_singleton_iff.mp hlast
    obtain rfl : trees = [tree] ++ front.reverse := by
      rw [← List.reverse_reverse trees, hsplit, List.reverse_append, List.reverse_singleton]
    obtain ⟨here, there, rfl, hhere, hthere⟩ := rulesOf_append_iff.mp hrules
    have hafter : (a.bodyOf item.advance).drop item.advance.marker = a.afterNext item := rfl
    rw [hafter] at hrest
    have hdrop : (a.bodyOf item).drop item.marker =
        [tree].reverse.map ParseTree.symbol ++ a.afterNext item := by
      rw [Grammar.drop_marker_of_next? hnext, ← hroot]
      rfl
    have htree := startsWith_firstTerminal (h.rulesOf hhere).isTreeOf rest
    have hstart : a.StartsWith (Grammar.firstTerminal (tree.leaves ++ rest))
        ((a.bodyOf item).drop item.marker ++ [.terminal (Grammar.firstTerminal z)]) := by
      have hreplaced := htree.replace hrest
      rw [hdrop, List.append_assoc]
      simpa using hreplaced
    have hread := hitem.reaches (by rw [List.reverse_reverse, hfront]) hthere hstart
    obtain ⟨s', below', hpath, -, hreach⟩ := hd.reads_forest hdet h hhere s below rest there
      (hitem.looks rfl) hdrop hrest
    -- the state that is reached is the one at the end of the path
    have hsame : s' :: below' = next :: s :: below := by
      refine hpath.eq ?_
      rw [List.reverse_singleton, List.map_singleton, hroot]
      exact Climbs.step (.refl _) move
    rw [hsplit, leavesOfAll_append, List.append_assoc]
    rw [hsame] at hreach
    rw [List.reverse_reverse] at hread
    simp only [leavesOfAll_cons, leavesOfAll_nil, List.append_nil, List.reverse_singleton] at hreach ⊢
    exact hread.trans hreach

/-- Every item at the end of a path goes on in some way. -/
theorem Drives.exists_continues (hd : A.Drives table) (hdet : table.isDeterministic = true)
    (h : g.IsAugmentation a) (hcomplete : g.IsCompletable) {symbols : List Symbol} {s : StateId}
    {below : List StateId} {item : Item} (path : Climbs A.states [0] symbols (s :: below))
    (hitem : HoldsAt A.states s item) :
    ∃ z, Continues g A table symbols (s :: below) item z := by
  refine A.path_induction (motive := fun symbols stack item =>
    ∃ z, Continues g A table symbols stack item z) ?_ ?_ ?_ path hitem
  · exact ⟨[], continues_start h⟩
  · intro symbols s below item j n _ _ ih hnext hj
    obtain ⟨z, hcontinues⟩ := ih
    exact hcontinues.spawn h hcomplete hnext hj
  · intro symbols s below item symbol next _ _ ih hnext move
    obtain ⟨z, hcontinues⟩ := ih
    exact ⟨z, hcontinues.advance hd hdet h hnext move⟩

/-! ## Words that go on -/

/-- A parser that goes on has an item in its current state. -/
theorem Drives.exists_item_of_step (hd : A.Drives table) {s : StateId} {below : List StateId}
    {input : List TerminalId} {reduced : List RuleId} {next : ShiftReduceState}
    (hstep : table.step ⟨s :: below, input, reduced⟩ = .next next) :
    ∃ item, HoldsAt A.states s item := by
  rw [ParseTable.step] at hstep
  dsimp only at hstep
  cases haction : table.action? s (input.head?.getD endOfInput) with
  | none => simp [haction] at hstep
  | some action =>
      have hcalls := hd.calls_of_action? haction
      generalize input.head?.getD endOfInput = l at hcalls
      cases hcalls with
      | shift holds _ _ => exact ⟨_, holds⟩
      | reduce looks _ _ => exact ⟨_, A.holds_of_looks looks⟩
      | accept holds _ _ => exact ⟨_, holds⟩

/-- If the parser goes on, then what it has read begins a word of the language, and
the parser comes through the same stack and the same reductions on this word. -/
theorem Drives.exists_continuation (hd : A.Drives table) (hdet : table.isDeterministic = true)
    (h : g.IsAugmentation a) (hcomplete : g.IsCompletable) {word : List TerminalId}
    {state next : ShiftReduceState} {trees : List ParseTree}
    (hread : HasRead g A word state trees) (hstep : table.step state = .next next) :
    ∃ rest, Grammar.firstTerminal rest ∈ g.terminals.keys ∧
      (∃ bound, StopsWithin table.step bound
        (ParseTable.initial (leavesOfAll trees.reverse ++ rest))) ∧
      Reaches table.step (ParseTable.initial (leavesOfAll trees.reverse ++ rest))
        ⟨state.stack, rest, state.reduced⟩ := by
  obtain ⟨stack, input, reduced⟩ := state
  cases stack with
  | nil => simp [ParseTable.step] at hstep
  | cons s below =>
      obtain ⟨item, hitem⟩ := hd.exists_item_of_step hstep
      obtain ⟨z, hcontinues⟩ := hd.exists_continues hdet h hcomplete hread.path hitem
      obtain ⟨-, hback⟩ := Grammar.exists_word_of_append (hcomplete _ hcontinues.derives)
      obtain ⟨⟨middle, hmiddle⟩, -⟩ := Grammar.exists_word_of_append hback
      have hfront : g.Derives (trees.reverse.map symbol) (sentence (leavesOfAll trees.reverse)) :=
        hread.rules.spells.derives
      have hword : g.Derives [.nonterminal g.start]
          (sentence (leavesOfAll trees.reverse ++ (middle ++ z))) := by
        rw [sentence_append, sentence_append]
        exact hcontinues.derives.trans (hfront.append (hmiddle.append_right _))
      refine ⟨middle ++ z, ?_, ?_, ?_⟩
      · cases hrest : middle ++ z with
        | nil => exact OrderedMap.mem_keys_of_get? h.isPlain.endOfInput_named
        | cons t rest =>
            rw [hrest] at hword
            exact h.isPlain.isClosed.declares_of_derives hword (.terminal t) (by simp)
      · obtain ⟨ids, hids⟩ := Grammar.HasWord.exists_derivesBy hword .rightmost
        obtain ⟨tree, hroot, hrules, hleaves⟩ := hids.exists_tree
        obtain ⟨last, hreach, hstop⟩ := hd.accepts_tree hdet h hrules hroot
        obtain ⟨bound, hrun⟩ := exists_runSteps_of_reaches hreach hstop
        rw [hleaves] at hrun
        exact ⟨bound, _, hrun⟩
      · exact hcontinues.reaches rfl hread.rules ((h.derives hmiddle).startsWith_firstTerminal z)

end LRAutomaton

end GrammarAnalysis

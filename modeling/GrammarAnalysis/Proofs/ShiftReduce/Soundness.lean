import GrammarAnalysis.Proofs.ShiftReduce.Reading

/-!
# What the parser has read

At any time the stack of the parser is a path through the automaton over the
roots of a forest; the leaves of the forest are the terminals read so far, and
its rules are those reduced so far.  No step of the parser breaks this, whether
the table has conflicts or not.  When the parser accepts, the forest is a single
tree of the start symbol.
-/

namespace GrammarAnalysis

open ParseTree

namespace LRAutomaton

variable {g a : Grammar} {A : LRAutomaton a} {table : ParseTable}

/-- What a configuration has made of the word: a forest over what has been
read, whose roots label the path of the stack. -/
structure HasRead (g : Grammar) (A : LRAutomaton a) (word : List TerminalId)
    (state : ShiftReduceState) (trees : List ParseTree) : Prop where
  path : Climbs A.states [0] (trees.reverse.map symbol) state.stack
  rules : RulesOf g .rightmost trees state.reduced
  leaves : leavesOfAll trees.reverse ++ state.input = word

theorem hasRead_initial (A : LRAutomaton a) (word : List TerminalId) :
    HasRead g A word (ParseTable.initial word) [] :=
  ⟨.refl _, .nil, rfl⟩

/-- A complete item at the end of a path: its body labels the end of the path. -/
theorem exists_origin_of_complete {symbols : List Symbol} {s : StateId}
    {below : List StateId} {item : Item} {rule : Rule}
    (path : Climbs A.states [0] symbols (s :: below)) (hitem : HoldsAt A.states s item)
    (hcomplete : a.next? item = none) (hrule : a.rules.get? item.rule = some rule) :
    ∃ before origin rest, symbols = before ++ rule.body ∧
      Climbs A.states [0] before (origin :: rest) ∧
      Climbs A.states (origin :: rest) rule.body (s :: below) ∧
      HoldsAt A.states origin (Item.initial item.rule) := by
  obtain ⟨hmarker, before, origin, rest, hsymbols, hbefore, hclimb, horigin⟩ :=
    A.exists_origin path hitem
  have hall : (a.bodyOf item).take item.marker = rule.body := by
    have hlength : (a.bodyOf item).length ≤ item.marker := List.getElem?_eq_none_iff.mp hcomplete
    rw [List.take_of_length_le hlength, Grammar.bodyOf_eq hrule]
  rw [hall] at hsymbols hclimb
  exact ⟨before, origin, rest, hsymbols, hbefore, hclimb, horigin⟩

/-- A reduction replaces the last trees of the forest by a node over them. -/
theorem HasRead.reduce (h : g.IsAugmentation a) {word : List TerminalId} {s : StateId}
    {below : List StateId} {input : List TerminalId} {reduced : List RuleId}
    {trees : List ParseTree} (hread : HasRead g A word ⟨s :: below, input, reduced⟩ trees)
    {item : Item} {rule : Rule} (hitem : HoldsAt A.states s item)
    (hcomplete : a.next? item = none) (hne : item.rule ≠ acceptRule)
    (hrule : a.rules.get? item.rule = some rule) :
    ∃ origin rest, (s :: below).drop rule.body.length = origin :: rest ∧
      ∀ next, MovesTo A.states origin (.nonterminal rule.head) next →
        ∃ trees', HasRead g A word ⟨next :: origin :: rest, input, item.rule :: reduced⟩
          trees' := by
  obtain ⟨before, origin, rest, hsymbols, hbefore, hclimb, -⟩ :=
    exists_origin_of_complete hread.path hitem hcomplete hrule
  refine ⟨origin, rest, hclimb.drop_eq, fun next move => ?_⟩
  obtain ⟨front, children, hsplit, rfl, hchildren⟩ := List.map_eq_append_iff.mp hsymbols
  have htrees : trees = children.reverse ++ front.reverse := by
    rw [← List.reverse_append, ← hsplit, List.reverse_reverse]
  have hrules := hread.rules
  rw [htrees, rulesOf_append_iff] at hrules
  obtain ⟨ids, more, hreduced, hids, hmore⟩ := hrules
  refine ⟨.node rule.head children :: front.reverse, ?_, ?_, ?_⟩
  · rw [List.reverse_cons, List.reverse_reverse, List.map_append]
    exact .step hbefore move
  · have hknown := h.get?_of_ne hne hrule
    dsimp only at hreduced
    rw [hreduced]
    exact .node hknown hchildren hids hmore
  · have hleaves := hread.leaves
    rw [hsplit, leavesOfAll_append] at hleaves
    rw [List.reverse_cons, List.reverse_reverse, leavesOfAll_append]
    simpa [leaves_node] using hleaves

/-- Every step of the parser keeps what has been read. -/
theorem HasRead.step (hd : A.Drives table) (h : g.IsAugmentation a) {word : List TerminalId}
    {state next : ShiftReduceState} {trees : List ParseTree}
    (hread : HasRead g A word state trees) (hstep : table.step state = .next next) :
    ∃ trees', HasRead g A word next trees' := by
  obtain ⟨stack, input, reduced⟩ := state
  cases stack with
  | nil => simp [ParseTable.step] at hstep
  | cons s below =>
      rw [ParseTable.step] at hstep
      dsimp only at hstep
      cases haction : table.action? s (input.head?.getD endOfInput) with
      | none => simp [haction] at hstep
      | some action =>
          have hcalls := hd.calls_of_action? haction
          rw [haction] at hstep
          generalize hl : input.head?.getD endOfInput = l at hcalls
          cases hcalls with
          | @shift target item _ hitem hnext move =>
              simp only [StepResult.next.injEq] at hstep
              subst hstep
              -- The end of input is never shifted, so there is a token to read.
              cases input with
              | nil =>
                  obtain rfl : endOfInput = l := hl
                  obtain ⟨rule, hrule, hget⟩ := Grammar.exists_rule_of_next? hnext
                  exact absurd (List.mem_of_getElem? hget) (h.endOfInput_not_mem hrule)
              | cons t input =>
                  obtain rfl : t = l := hl
                  refine ⟨.leaf t :: trees, ?_, .leaf t hread.rules, ?_⟩
                  · rw [List.reverse_cons, List.map_append]
                    exact .step hread.path move
                  · rw [List.reverse_cons, leavesOfAll_append]
                    simpa [leaves_leaf] using hread.leaves
          | @reduce item _ hlooks hcomplete hne =>
              simp only [hd.grammar_eq] at hstep
              cases hrule : a.rules.get? item.rule with
              | none => simp [hrule] at hstep
              | some rule =>
                  obtain ⟨origin, rest, hdrop, hnode⟩ :=
                    hread.reduce h (A.holds_of_looks hlooks) hcomplete hne hrule
                  simp only [hrule, ParseTable.reduceBy, hdrop] at hstep
                  cases hgoto : table.goto? origin rule.head with
                  | none => simp [hgoto] at hstep
                  | some target =>
                      simp only [hgoto, StepResult.next.injEq] at hstep
                      subst hstep
                      exact hnode target (hd.move_of_goto? hgoto)
          | accept _ _ _ => simp at hstep

theorem HasRead.of_reaches (hd : A.Drives table) (h : g.IsAugmentation a)
    {word : List TerminalId} {first last : ShiftReduceState}
    (hreach : Reaches table.step first last) (hfirst : ∃ trees, HasRead g A word first trees) :
    ∃ trees, HasRead g A word last trees := by
  induction hreach with
  | refl => exact hfirst
  | next here _ ih =>
      obtain ⟨trees, hread⟩ := hfirst
      exact ih (hread.step hd h here)

/-- The rule that an item starts is a rule of the plain grammar, since the reserved
start symbol stands in no body. -/
theorem exists_rule_of_spawn (h : g.IsAugmentation a) {item j : Item} {n : NonterminalId}
    (hnext : a.next? item = some (.nonterminal n)) (hj : j ∈ a.initialItems n) :
    ∃ rule, g.rules.get? j.rule = some rule ∧ rule.head = n ∧ j.marker = 0 := by
  obtain ⟨rule, hrule, hhead, hmarker⟩ := Grammar.mem_initialItems.mp hj
  refine ⟨rule, h.get?_of_ne (fun haccept => ?_) hrule, hhead, hmarker⟩
  rw [haccept, h.get?_accept, Option.some.injEq] at hrule
  obtain ⟨parent, hparent, hget⟩ := Grammar.exists_rule_of_next? hnext
  rw [← hhead, ← hrule] at hget
  exact h.augmentedStart_not_mem hparent (List.mem_of_getElem? hget)

/-- If what an item still expects completes a sentential form, then so does the body of a
rule that it starts, with what the item expects behind its head. -/
theorem derives_of_spawn (h : g.IsAugmentation a) {item j : Item} {n : NonterminalId}
    (hnext : a.next? item = some (.nonterminal n)) (hj : j ∈ a.initialItems n)
    {symbols after : List Symbol}
    (hform : g.Derives [.nonterminal g.start]
      (symbols ++ ((a.bodyOf item).drop item.marker ++ after))) :
    g.Derives [.nonterminal g.start]
      (symbols ++ ((a.bodyOf j).drop j.marker ++ (a.afterNext item ++ after))) := by
  obtain ⟨rule, hknown, hhead, hmarker⟩ := exists_rule_of_spawn h hnext hj
  rw [Grammar.drop_marker_of_next? hnext, ← hhead] at hform
  rw [hmarker, Grammar.bodyOf_eq (h.get?_of_get? hknown), List.drop_zero]
  have hexpand := (Grammar.Derives.of_rule hknown).append_right (a.afterNext item ++ after)
  exact hform.trans (hexpand.append_left symbols)

/-- The item of the reserved rule starts in the first state only. -/
theorem eq_start_of_holdsAt_initial (h : g.IsAugmentation a) {symbols : List Symbol}
    {s : StateId} {below : List StateId} (path : Climbs A.states [0] symbols (s :: below))
    (hitem : HoldsAt A.states s (Item.initial acceptRule)) : symbols = [] := by
  refine A.path_induction (motive := fun symbols _ item =>
    item = Item.initial acceptRule → symbols = []) ?_ ?_ ?_ path hitem rfl
  · intro _
    rfl
  · rintro symbols s below item j n - - - hnext hj rfl
    obtain ⟨rule, hrule, -, -⟩ := exists_rule_of_spawn h hnext hj
    exact absurd rfl (h.isPlain.ne_acceptRule hrule)
  · rintro symbols s below item symbol next - - - - - hadvance
    have hmarker := congrArg Item.marker hadvance
    simp [Item.advance, Item.initial] at hmarker

/-- When the parser is about to accept, it has read the whole word, and the one symbol on
its path from the first state is the start symbol. -/
theorem HasRead.accept (hd : A.Drives table) (h : g.IsAugmentation a) {word : List TerminalId}
    (hend : endOfInput ∉ word) {s : StateId} {below : List StateId} {input : List TerminalId}
    {reduced : List RuleId} {trees : List ParseTree}
    (hread : HasRead g A word ⟨s :: below, input, reduced⟩ trees)
    (haction : table.action? s (input.head?.getD endOfInput) = some .accept) :
    input = [] ∧ below = [0] ∧ ∃ tree, trees = [tree] ∧ tree.symbol = .nonterminal g.start := by
  have hcalls := hd.calls_of_action? haction
  generalize hl : input.head?.getD endOfInput = l at hcalls
  cases hcalls with
  | @accept item hitem hcomplete hrule =>
      have haccept : a.rules.get? item.rule = some ⟨augmentedStart, [.nonterminal g.start]⟩ := by
        rw [hrule, h.get?_accept]
      obtain ⟨before, origin, rest, hsymbols, hbefore, hclimb, horigin⟩ :=
        exists_origin_of_complete hread.path hitem hcomplete haccept
      rw [hrule] at horigin
      obtain rfl := eq_start_of_holdsAt_initial h hbefore horigin
      have hbottom : origin :: rest = [0] := hbefore.drop_eq
      have hbelow : below = origin :: rest := hclimb.drop_eq
      rw [List.nil_append] at hsymbols
      obtain ⟨tree, htree, hroot⟩ := List.map_eq_singleton_iff.mp hsymbols
      have htrees : trees = [tree] := by
        rw [← List.reverse_reverse trees, htree, List.reverse_singleton]
      refine ⟨?_, hbelow.trans hbottom, tree, htrees, hroot⟩
      cases input with
      | nil => rfl
      | cons t input =>
          simp only [List.head?_cons, Option.getD_some] at hl
          subst hl
          refine absurd ?_ hend
          rw [← hread.leaves]
          simp

/-- When the parser accepts, it has read the word into a tree of the start symbol. -/
theorem HasRead.of_stop (hd : A.Drives table) (h : g.IsAugmentation a)
    {word : List TerminalId} (hend : endOfInput ∉ word) {state : ShiftReduceState}
    {trees : List ParseTree} {derivation : Derivation} (hread : HasRead g A word state trees)
    (hstop : table.step state = .stop (.derived derivation)) :
    derivation.order = .rightmost ∧ ∃ tree, tree.symbol = .nonterminal g.start ∧
      RulesOf g .rightmost [tree] derivation.rules ∧ tree.leaves = word := by
  obtain ⟨stack, input, reduced⟩ := state
  cases stack with
  | nil => simp [ParseTable.step] at hstop
  | cons s below =>
      rw [ParseTable.step] at hstop
      dsimp only at hstop
      cases haction : table.action? s (input.head?.getD endOfInput) with
      | none => simp [haction] at hstop
      | some action =>
          rw [haction] at hstop
          cases action with
          | shift next => simp at hstop
          | reduce id =>
              dsimp only at hstop
              split at hstop
              · simp at hstop
              · rw [ParseTable.reduceBy] at hstop
                split at hstop
                · simp at hstop
                · split at hstop <;> simp at hstop
          | accept =>
              simp only [StepResult.stop.injEq, ParseOutcome.derived.injEq] at hstop
              subst hstop
              obtain ⟨rfl, -, tree, rfl, hroot⟩ := hread.accept hd h hend haction
              exact ⟨rfl, tree, hroot, hread.rules, by simpa using hread.leaves⟩

end LRAutomaton

end GrammarAnalysis

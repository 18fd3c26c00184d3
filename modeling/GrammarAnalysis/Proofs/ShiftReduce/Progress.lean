import GrammarAnalysis.Proofs.ShiftReduce.Correctness

/-!
# Why the parser never goes astray

The stack of the parser is a path of its automaton.  A complete item at the end of
the path has been started further down, in a state where another item expects the
head of its rule.  So a reduction finds a state for each symbol of the body, a
state below them, and a goto from there, whichever entries of the cells the parser
follows; it gives up only where a cell is empty.
-/

namespace GrammarAnalysis

namespace LRAutomaton

variable {g a : Grammar} {A : LRAutomaton a} {table : ParseTable} {s : StateId}
  {below : List StateId} {symbols : List Symbol}

/-- An item that starts a rule, other than the reserved one, was started by an item that
expects the head of the rule. -/
theorem exists_parent_of_unfolds {seed : Item → Prop} {id : RuleId} {rule : Rule}
    (hrule : a.rules.get? id = some rule) (hseed : ¬ seed (Item.initial id))
    (h : a.Unfolds seed (Item.initial id)) :
    ∃ parent, a.Unfolds seed parent ∧ a.next? parent = some (.nonterminal rule.head) := by
  generalize hitem : Item.initial id = item at h
  cases h with
  | seed h => exact absurd (hitem ▸ h) hseed
  | @spawn parent _ n hparent expects initial =>
      subst hitem
      obtain ⟨rule', hrule', rfl, -⟩ := Grammar.mem_initialItems.mp initial
      obtain rfl : rule' = rule := Option.some.inj (hrule'.symm.trans hrule)
      exact ⟨parent, hparent, expects⟩

theorem exists_parent_of_holdsAt (path : Climbs A.states [0] symbols (s :: below))
    {id : RuleId} {rule : Rule} (hne : id ≠ acceptRule) (hrule : a.rules.get? id = some rule)
    (hitem : HoldsAt A.states s (Item.initial id)) :
    ∃ parent, HoldsAt A.states s parent ∧ a.next? parent = some (.nonterminal rule.head) := by
  cases path with
  | refl =>
      have hseed : Item.initial id ≠ Item.initial acceptRule := fun heq =>
        hne (congrArg Item.rule heq)
      obtain ⟨parent, hparent, hnext⟩ :=
        exists_parent_of_unfolds hrule hseed ((A.holds_start _).mp hitem)
      exact ⟨parent, (A.holds_start parent).mpr hparent, hnext⟩
  | @step below' _ s' _ symbol path move =>
      have hseed : ¬ MovedOver a A.states s' symbol (Item.initial id) := by
        rintro ⟨i, -, -, hadvance⟩
        have hmarker := congrArg Item.marker hadvance
        simp [Item.advance, Item.initial] at hmarker
      obtain ⟨parent, hparent, hnext⟩ :=
        exists_parent_of_unfolds hrule hseed ((A.holds_next move _).mp hitem)
      exact ⟨parent, (A.holds_next move parent).mpr hparent, hnext⟩

theorem exists_rule_of_holdsAt (h : g.IsAugmentation a)
    (path : Climbs A.states [0] symbols (s :: below)) {item : Item}
    (hitem : HoldsAt A.states s item) : ∃ rule, a.rules.get? item.rule = some rule := by
  refine A.path_induction (motive := fun _ _ item => ∃ rule, a.rules.get? item.rule = some rule)
    ⟨_, h.get?_accept⟩ ?_ ?_ path hitem
  · intro symbols s below item j n _ _ _ _ hj
    obtain ⟨rule, hrule, -, -⟩ := Grammar.mem_initialItems.mp hj
    exact ⟨rule, hrule⟩
  · intro symbols s below item symbol next _ _ hrule _ _
    exact hrule

/-- A state that a rule was started in has a goto on the head of the rule. -/
theorem Drives.exists_goto? (hd : A.Drives table)
    (path : Climbs A.states [0] symbols (s :: below)) {id : RuleId} {rule : Rule}
    (hne : id ≠ acceptRule) (hrule : a.rules.get? id = some rule)
    (hitem : HoldsAt A.states s (Item.initial id)) :
    ∃ next, table.goto? s rule.head = some next := by
  obtain ⟨parent, hparent, hnext⟩ := exists_parent_of_holdsAt path hne hrule hitem
  obtain ⟨next, move⟩ := A.exists_next hparent hnext
  exact ⟨next, hd.goto?_eq hparent hnext move⟩

end LRAutomaton

namespace ParseTable

/-- What the parser relies on in a configuration. -/
structure IsOnCourse (table : ParseTable) (state : ShiftReduceState) : Prop where
  /-- The stack is a path of the automaton from its first state. -/
  path : ∃ symbols, Climbs table.states [0] symbols state.stack
  /-- A reduction finds more states than its body has symbols, and a goto on its head. -/
  reduce : ∀ s below id, state.stack = s :: below →
    table.action? s (state.input.head?.getD endOfInput) = some (.reduce id) →
      ∃ rule, table.grammar.rules.get? id = some rule ∧
        rule.body.length + 1 ≤ state.stack.length ∧
        ∃ top rest next, state.stack.drop rule.body.length = top :: rest ∧
          table.goto? top rule.head = some next
  /-- The parser accepts with two states on the stack, and nothing left to read. -/
  accept : ∀ s below, state.stack = s :: below →
    table.action? s (state.input.head?.getD endOfInput) = some .accept →
      state.stack.length = 2 ∧ state.input = []

/-- A parser that is on course gives up only where the cell is empty. -/
theorem IsOnCourse.step_eq_iff {table : ParseTable} {state : ShiftReduceState}
    (h : table.IsOnCourse state) :
    table.step state = .stop .notRecognized ↔ ∃ s below, state.stack = s :: below ∧
      table.action? s (state.input.head?.getD endOfInput) = none := by
  obtain ⟨symbols, path⟩ := h.path
  obtain ⟨stack, input, reduced⟩ := state
  cases stack with
  | nil => cases path
  | cons s below =>
      simp only [step, List.cons.injEq]
      constructor
      · intro hstop
        refine ⟨s, below, ⟨rfl, rfl⟩, ?_⟩
        cases haction : table.action? s (input.head?.getD endOfInput) with
        | none => rfl
        | some action =>
            rw [haction] at hstop
            cases action with
            | shift next => simp at hstop
            | accept => simp at hstop
            | reduce id =>
                obtain ⟨rule, hrule, -, top, rest, next, hdrop, hgoto⟩ :=
                  h.reduce s below id rfl haction
                simp only at hdrop
                simp [hrule, reduceBy, hdrop, hgoto] at hstop
      · intro hempty
        obtain ⟨s', below', ⟨hs, -⟩, hnone⟩ := hempty
        rw [hs, hnone]

end ParseTable

namespace LRAutomaton

variable {g a : Grammar} {A : LRAutomaton a} {table : ParseTable}

theorem HasRead.isOnCourse (hd : A.Drives table) (h : g.IsAugmentation a)
    {word : List TerminalId} (hend : endOfInput ∉ word) {state : ShiftReduceState}
    {trees : List ParseTree} (hread : HasRead g A word state trees) : table.IsOnCourse state := by
  refine ⟨?_, ?_, ?_⟩
  · rw [hd.states_eq]
    exact ⟨_, hread.path⟩
  · intro s below id hstack haction
    have path := hread.path
    rw [hstack] at path
    rw [hd.grammar_eq, hstack]
    have hcalls := hd.calls_of_action? haction
    generalize state.input.head?.getD endOfInput = l at hcalls
    cases hcalls with
    | @reduce item _ hlooks hcomplete hne =>
        have hitem := A.holds_of_looks hlooks
        obtain ⟨rule, hrule⟩ := exists_rule_of_holdsAt h path hitem
        obtain ⟨before, origin, rest, -, hbefore, hclimb, horigin⟩ :=
          exists_origin_of_complete path hitem hcomplete hrule
        obtain ⟨next, hgoto⟩ := hd.exists_goto? hbefore hne hrule horigin
        have hdrop := hclimb.drop_eq
        have hlength := congrArg List.length hdrop
        simp only [List.length_drop, List.length_cons] at hlength
        refine ⟨rule, hrule, ?_, origin, rest, next, hdrop, hgoto⟩
        rw [List.length_cons]
        omega
  · intro s below hstack haction
    obtain ⟨stack, input, reduced⟩ := state
    obtain rfl : stack = s :: below := hstack
    obtain ⟨hinput, rfl, -⟩ := hread.accept hd h hend haction
    exact ⟨rfl, hinput⟩

end LRAutomaton

/-- For every grammar that is read from text there are tables of all kinds, with or without
conflicts. In every configuration that is reached on a word without the end of input, the stack
is a path of the automaton from its first state, a reduction finds a state for each symbol of
its body, one below them and a goto from there, and the parser accepts with two states on the
stack and nothing left to read. So it answers that a word is not recognized only because the
cell of its state and lookahead is empty. -/
theorem Grammar.exists_parseTable_on_course {text : String} {g : Grammar}
    (hg : Grammar.ofText text = .ok g) (kind : TableKind) :
    ∃ table, g.parseTable? kind = some table ∧ ∀ word, endOfInput ∉ word →
      (∀ state, Reaches table.step (ParseTable.initial word) state →
        table.IsOnCourse state ∧
          (table.step state = .stop .notRecognized ↔ ∃ s below, state.stack = s :: below ∧
            table.action? s (state.input.head?.getD endOfInput) = none)) ∧
      ∀ bound, table.run bound word = some .notRecognized →
        ∃ state s below, Reaches table.step (ParseTable.initial word) state ∧
          state.stack = s :: below ∧
          table.action? s (state.input.head?.getD endOfInput) = none := by
  obtain ⟨a, table, A, h, htable, hd⟩ := (isPlain_of_ofText hg).exists_drives kind
  refine ⟨table, htable, fun word hend => ?_⟩
  have hcourse : ∀ state, Reaches table.step (ParseTable.initial word) state →
      table.IsOnCourse state := fun state hreach => by
    obtain ⟨trees, hread⟩ :=
      LRAutomaton.HasRead.of_reaches hd h hreach ⟨[], LRAutomaton.hasRead_initial A word⟩
    exact hread.isOnCourse hd h hend
  refine ⟨fun state hreach => ⟨hcourse state hreach, (hcourse state hreach).step_eq_iff⟩, ?_⟩
  intro bound hrun
  obtain ⟨state, hreach, hstop⟩ := reaches_of_runSteps hrun
  obtain ⟨s, below, hstack, hnone⟩ := (hcourse state hreach).step_eq_iff.mp hstop
  exact ⟨state, s, below, hreach, hstack, hnone⟩

/-- The table of an ambiguous grammar has conflicts, and refuses a sum without its last term
at an empty cell. -/
theorem Grammar.exists_parseTable_on_course_ambiguous :
    ∃ g table, Grammar.ofText "E -> E + E | n\n" = .ok g ∧
      g.parseTable? .lalr1 = some table ∧ table.isDeterministic = false ∧
      table.run 9 [2, 1] = some .notRecognized ∧
      ∃ state s below, Reaches table.step (ParseTable.initial [2, 1]) state ∧
        state.stack = s :: below ∧
        table.action? s (state.input.head?.getD endOfInput) = none := by
  have hcomputed : (Grammar.ofText "E -> E + E | n\n").toOption.map (fun g =>
      (g.parseTable? .lalr1).map fun table => (table.isDeterministic,
        decide (table.run 9 [2, 1] = some .notRecognized))) =
      some (some (false, true)) := by decide +kernel
  obtain ⟨g, hg, hcomputed⟩ := Grammar.exists_of_ofText hcomputed
  obtain ⟨table, htable, hcourse⟩ := Grammar.exists_parseTable_on_course hg .lalr1
  rw [htable, Option.map_some, Option.some.injEq, Prod.mk.injEq, decide_eq_true_eq] at hcomputed
  obtain ⟨hdet, hrun⟩ := hcomputed
  exact ⟨g, table, hg, htable, hdet, hrun, (hcourse [2, 1] (by decide)).2 9 hrun⟩

end GrammarAnalysis

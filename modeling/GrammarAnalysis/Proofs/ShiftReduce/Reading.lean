import GrammarAnalysis.Derivation.Run
import GrammarAnalysis.Proofs.ShiftReduce.Table
import GrammarAnalysis.ShiftReduce.Parser

/-!
# Reading forests

In a deterministic table the parser reads the leaves of a forest that an item of
the current state expects: it shifts the leaves, reduces every inner node, and
ends in front of what comes after the leaves, with the rules of the forest in
front of the rules reduced before.

* `LRAutomaton.Drives.reads_forest` is the simulation.
* `LRAutomaton.Drives.accepts_tree` applies it to a tree of the start symbol.
-/

namespace GrammarAnalysis

open ParseTree

/-- Trees of a plain grammar are trees of its augmentation. -/
theorem Grammar.IsAugmentation.rulesOf {g a : Grammar} (h : g.IsAugmentation a)
    {order : Handedness} {trees : List ParseTree} {ids : List RuleId}
    (hrules : RulesOf g order trees ids) : RulesOf a order trees ids := by
  induction hrules with
  | nil => exact .nil
  | leaf t _ ih => exact .leaf t ih
  | node known fits _ _ ihBelow ihRest => exact .node (h.get?_of_get? known) fits ihBelow ihRest

namespace LRAutomaton

variable {g a : Grammar} {A : LRAutomaton a} {table : ParseTable}

/-! ## Single steps -/

theorem Drives.step_shift (hd : A.Drives table) (hdet : table.isDeterministic = true)
    {s next : StateId} (below : List StateId) {item : Item} {t : TerminalId}
    (input : List TerminalId) (reduced : List RuleId) (hitem : HoldsAt A.states s item)
    (hnext : a.next? item = some (.terminal t)) (move : MovesTo A.states s (.terminal t) next) :
    table.step ⟨s :: below, t :: input, reduced⟩ = .next ⟨next :: s :: below, input, reduced⟩ := by
  have haction := hd.action?_eq hdet (.shift hitem hnext move)
  simp [ParseTable.step, haction]

theorem Drives.step_reduce (hd : A.Drives table) (hdet : table.isDeterministic = true)
    {s origin next : StateId} {below rest : List StateId} {item parent : Item} {rule : Rule}
    {input : List TerminalId} (reduced : List RuleId)
    (hlooks : A.looks s item (Grammar.firstTerminal input)) (hcomplete : a.next? item = none)
    (hne : item.rule ≠ acceptRule) (hrule : a.rules.get? item.rule = some rule)
    (path : Climbs A.states (origin :: rest) rule.body (s :: below))
    (hparent : HoldsAt A.states origin parent)
    (hnext : a.next? parent = some (.nonterminal rule.head))
    (move : MovesTo A.states origin (.nonterminal rule.head) next) :
    table.step ⟨s :: below, input, reduced⟩ =
      .next ⟨next :: origin :: rest, input, item.rule :: reduced⟩ := by
  have haction := hd.action?_eq hdet (.reduce hlooks hcomplete hne)
  have hgoto := hd.goto?_eq hparent hnext move
  rw [Grammar.firstTerminal] at haction
  simp [ParseTable.step, haction, hd.grammar_eq, hrule, ParseTable.reduceBy, path.drop_eq, hgoto]

theorem Drives.step_accept (hd : A.Drives table) (hdet : table.isDeterministic = true)
    {s : StateId} {below : List StateId} {item : Item} (reduced : List RuleId)
    (hitem : HoldsAt A.states s item) (hcomplete : a.next? item = none)
    (hrule : item.rule = acceptRule) :
    table.step ⟨s :: below, [], reduced⟩ = .stop (.derived ⟨.rightmost, reduced⟩) := by
  have haction := hd.action?_eq hdet (.accept hitem hcomplete hrule)
  simp [ParseTable.step, haction]

/-! ## Forests -/

/-- The item with its marker moved over a number of symbols. -/
def advanceBy (item : Item) (n : Nat) : Item := ⟨item.rule, item.marker + n⟩

/-- The expected symbol and what comes after it, from what is left of the body. -/
theorem next?_of_drop {item : Item} {n : Nat} {seen after : List Symbol} {s : Symbol}
    (h : (a.bodyOf item).drop item.marker = seen ++ s :: after) (hn : seen.length = n) :
    a.next? (advanceBy item n) = some s ∧ a.afterNext (advanceBy item n) = after := by
  have hdrop : (a.bodyOf item).drop (item.marker + n) = s :: after := by
    rw [← List.drop_drop, h, ← hn, List.drop_left]
  constructor
  · have hget : ((a.bodyOf item).drop (item.marker + n))[0]? =
        (a.bodyOf item)[item.marker + n + 0]? := List.getElem?_drop
    rw [hdrop, Nat.add_zero, List.getElem?_cons_zero] at hget
    exact hget.symm
  · have htail := congrArg (List.drop 1) hdrop
    rw [List.drop_drop] at htail
    exact htail

/-- Whether the parser reads the forest whenever an item of the current state
expects its roots: it goes over them in the automaton and makes the reductions `ids`. -/
def Reads (A : LRAutomaton a) (table : ParseTable) (trees : List ParseTree)
    (ids : List RuleId) : Prop :=
  ∀ (s : StateId) (below : List StateId) {item : Item} {l : TerminalId} {after : List Symbol}
    (rest : List TerminalId) (reduced : List RuleId),
    A.looks s item l → (a.bodyOf item).drop item.marker = trees.map symbol ++ after →
    a.StartsWith (Grammar.firstTerminal rest) (after ++ [.terminal l]) →
    ∃ s' below', Climbs A.states (s :: below) (trees.map symbol) (s' :: below') ∧
      A.looks s' (advanceBy item trees.length) l ∧
      Reaches table.step ⟨s :: below, leavesOfAll trees ++ rest, reduced⟩
        ⟨s' :: below', rest, ids ++ reduced⟩

theorem reads_nil : Reads A table [] [] := by
  intro s below item l after rest reduced hlooks _ _
  exact ⟨s, below, .refl _, hlooks, .refl _⟩

/-- A leaf behind a forest is shifted. -/
theorem Drives.reads_leaf (hd : A.Drives table) (hdet : table.isDeterministic = true)
    {trees : List ParseTree} {ids : List RuleId} (hfront : Reads A table trees ids)
    (t : TerminalId) : Reads A table (trees ++ [.leaf t]) ids := by
  intro s below item l after rest reduced hlooks hdrop _
  rw [List.map_append, List.map_singleton, List.append_assoc, List.singleton_append] at hdrop
  obtain ⟨s', below', path, hlooks', hreach⟩ := hfront s below (t :: rest) reduced hlooks hdrop
    (.here _)
  obtain ⟨hnext, -⟩ := next?_of_drop hdrop (List.length_map _)
  obtain ⟨next, move⟩ := A.exists_next (A.holds_of_looks hlooks') hnext
  have hstep := hd.step_shift hdet below' rest (ids ++ reduced) (A.holds_of_looks hlooks')
    hnext move
  refine ⟨next, s' :: below', ?_, ?_, ?_⟩
  · rw [List.map_append]
    exact .step path move
  · rw [List.length_append]
    exact A.looks_next hlooks' hnext move
  · rw [leavesOfAll_append]
    simp only [leavesOfAll_cons, leaves_leaf, leavesOfAll_nil, List.append_assoc,
      List.singleton_append]
    exact hreach.trans (.next hstep (.refl _))

/-- An inner node behind a forest is reduced after its children have been read. -/
theorem Drives.reads_node (hd : A.Drives table) (hdet : table.isDeterministic = true)
    {id : RuleId} {rule : Rule} {children trees : List ParseTree} {ids more : List RuleId}
    (hne : id ≠ acceptRule) (known : a.rules.get? id = some rule)
    (fits : children.map symbol = rule.body) (hchildren : ∀ child ∈ children, IsTreeOf a child)
    (hfront : Reads A table trees more) (hbelow : Reads A table children ids) :
    Reads A table (trees ++ [.node rule.head children]) (id :: (ids ++ more)) := by
  intro s below item l after rest reduced hlooks hdrop hstart
  rw [List.map_append, List.map_singleton, List.append_assoc, List.singleton_append] at hdrop
  have hnode := startsWith_firstTerminal hchildren rest
  rw [fits] at hnode
  obtain ⟨s', below', path, hlooks', hreach⟩ := hfront s below (leavesOfAll children ++ rest)
    reduced hlooks hdrop (Grammar.startsWith_head_of_body known hnode hstart)
  -- the initial item of the rule expects the children
  obtain ⟨hnext, hafter⟩ := next?_of_drop hdrop (List.length_map _)
  have hinitial : Item.initial id ∈ a.initialItems rule.head :=
    Grammar.mem_initialItems.mpr ⟨rule, known, rfl, rfl⟩
  rw [← hafter] at hstart
  have hspawn := A.looks_spawn hlooks' hnext hinitial hstart
  have hbodyOf : ∀ item : Item, item.rule = id → a.bodyOf item = rule.body :=
    fun item hitem => Grammar.bodyOf_eq (by rw [hitem, known])
  have hbody : (a.bodyOf (Item.initial id)).drop (Item.initial id).marker =
      children.map symbol ++ [] := by
    rw [hbodyOf _ rfl, fits, List.append_nil]
    rfl
  obtain ⟨s'', below'', path', hlooks'', hreach'⟩ := hbelow s' below' rest (more ++ reduced) hspawn
    hbody (.here [])
  rw [fits] at path'
  have hcomplete : a.next? (advanceBy (Item.initial id) children.length) = none := by
    have hlength : children.length = rule.body.length := by
      rw [← fits, List.length_map]
    rw [Grammar.next?, hbodyOf (advanceBy (Item.initial id) _) rfl, hlength]
    simp [advanceBy, Item.initial]
  obtain ⟨next, move⟩ := A.exists_next (A.holds_of_looks hlooks') hnext
  have hstep := hd.step_reduce hdet (ids ++ (more ++ reduced)) hlooks'' hcomplete hne known path'
    (A.holds_of_looks hlooks') hnext move
  refine ⟨next, s' :: below', ?_, ?_, ?_⟩
  · rw [List.map_append]
    exact .step path move
  · rw [List.length_append]
    exact A.looks_next hlooks' hnext move
  · rw [leavesOfAll_append]
    simp only [leavesOfAll_cons, leaves_node, leavesOfAll_nil, List.append_nil,
      List.append_assoc, List.cons_append]
    exact hreach.trans (hreach'.trans (.next hstep (.refl _)))

/-- The parser reads every forest of the plain grammar.  The induction is on the
rules of the forest, which come with the last tree first. -/
theorem Drives.reads_forest (hd : A.Drives table) (hdet : table.isDeterministic = true)
    (h : g.IsAugmentation a) {trees : List ParseTree} {ids : List RuleId}
    (hrules : RulesOf g .rightmost trees ids) : Reads A table trees.reverse ids := by
  induction hrules with
  | nil => exact reads_nil
  | leaf t _ ih =>
      rw [List.reverse_cons]
      exact hd.reads_leaf hdet ih t
  | @node id rule children trees ids more known fits hbelow _ ihBelow ihRest =>
      have hchildren : ∀ child ∈ children, IsTreeOf a child := fun child hchild =>
        (h.rulesOf hbelow).isTreeOf child (List.mem_reverse.mpr hchild)
      have hread : Reads A table children ids := by
        rw [← List.reverse_reverse children]
        exact ihBelow
      rw [List.reverse_cons]
      exact hd.reads_node hdet (h.isPlain.ne_acceptRule known) (h.get?_of_get? known) fits
        hchildren ihRest hread

/-- The parser accepts the leaves of a tree of the start symbol with its rules. -/
theorem Drives.accepts_tree (hd : A.Drives table) (hdet : table.isDeterministic = true)
    (h : g.IsAugmentation a) {tree : ParseTree} {ids : List RuleId}
    (hrules : RulesOf g .rightmost [tree] ids) (hroot : tree.symbol = .nonterminal g.start) :
    ∃ last, Reaches table.step (ParseTable.initial tree.leaves) last ∧
      table.step last = .stop (.derived ⟨.rightmost, ids⟩) := by
  have hbodyOf : ∀ item : Item, item.rule = acceptRule →
      a.bodyOf item = [.nonterminal g.start] :=
    fun item hitem => Grammar.bodyOf_eq (by rw [hitem, h.get?_accept])
  have hbody : (a.bodyOf (Item.initial acceptRule)).drop (Item.initial acceptRule).marker =
      [tree].reverse.map symbol ++ [] := by
    rw [hbodyOf _ rfl]
    simp [Item.initial, hroot]
  obtain ⟨s, below, -, hlooks, hreach⟩ := hd.reads_forest hdet h hrules 0 [] [] []
    A.looks_start hbody (.here [])
  have hcomplete : a.next? (advanceBy (Item.initial acceptRule) [tree].length) = none := by
    rw [Grammar.next?, hbodyOf (advanceBy (Item.initial acceptRule) _) rfl]
    simp [advanceBy, Item.initial]
  refine ⟨⟨s :: below, [], ids ++ []⟩, ?_, ?_⟩
  · simpa [ParseTable.initial] using hreach
  · rw [List.append_nil]
    exact hd.step_accept hdet ids (A.holds_of_looks hlooks) hcomplete rfl

end LRAutomaton

end GrammarAnalysis

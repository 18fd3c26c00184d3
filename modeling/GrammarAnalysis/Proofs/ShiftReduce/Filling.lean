import GrammarAnalysis.Proofs.ShiftReduce.Conflicts
import GrammarAnalysis.Proofs.Table.Filling

/-!
# Filling a table in one go

The items of all states, one after the other, register their actions and their gotos
in two maps, and a flag remembers whether some registration has left its cell with a
conflict.  The maps then list the cells of the table row by row, and the flag tells
whether the table is deterministic (`Filling.gives_ofStates`).

What the items of a state call for is said once more in terms of the items, their
lookaheads and the transitions of the state (`ParserState.Calls`), and the row of the
state is exact for it (`Grammar.IsAugmentation.isExactFor_row`).
-/

namespace GrammarAnalysis

/-- The cells of a table while it is filled. -/
structure Filling where
  actions : Cells (StateId × TerminalId) Action
  gotos : Cells (StateId × NonterminalId) StateId
  /-- Whether every registration has left its cell without a conflict. -/
  consistent : Bool

namespace Filling

/-- No cell is filled. -/
def start : Filling := ⟨∅, ∅, true⟩

/-- Registers an action in the row `s`. -/
def addAction (s : StateId) (filling : Filling) (entry : TerminalId × Action) : Filling :=
  let registered := Cells.registerOk filling.actions (s, entry.1) entry.2
  { filling with actions := registered.1, consistent := filling.consistent && registered.2 }

/-- Registers a goto in the row `s`. -/
def addGoto (s : StateId) (filling : Filling) (entry : NonterminalId × StateId) : Filling :=
  let registered := Cells.registerOk filling.gotos (s, entry.1) entry.2
  { filling with gotos := registered.1, consistent := filling.consistent && registered.2 }

/-- Registers what an item of the state `s` calls for. -/
def fillItem (g : Grammar) (follow : Option FollowSets) (s : StateId) (state : ParserState)
    (filling : Filling) (entry : Item × NatSet) : Filling :=
  match g.next? entry.1 with
  | some (.terminal t) =>
    match state.transitions.get? (.terminal t) with
    | some next => filling.addAction s (t, .shift next)
    | none => filling
  | some (.nonterminal n) =>
    match state.transitions.get? (.nonterminal n) with
    | some next => filling.addGoto s (n, next)
    | none => filling
  | none =>
    if entry.1.rule = acceptRule then filling.addAction s (endOfInput, .accept)
    else
      (ParseTable.reduceLookaheads g follow entry.1 entry.2).foldl
        (fun filling t => filling.addAction s (t, .reduce entry.1.rule)) filling

/-- Registers what the items of a state call for. -/
def fillState (g : Grammar) (follow : Option FollowSets) (filling : Filling)
    (row : ParserState × StateId) : Filling :=
  row.1.items.entries.foldl (fillItem g follow row.2 row.1) filling

/-- Registers what the items of all states call for. -/
def ofStates (g : Grammar) (states : List ParserState) (follow : Option FollowSets) : Filling :=
  states.zipIdx.foldl (fillState g follow) start

variable {g : Grammar} {follow : Option FollowSets} {s : StateId} {state : ParserState}

/-! ## The cells -/

@[simp] theorem actions_addAction (filling : Filling) (entry : TerminalId × Action) :
    (filling.addAction s entry).actions = Cells.registerIn s filling.actions entry := by
  rw [addAction, Cells.registerOk_eq, Cells.registerIn]

@[simp] theorem gotos_addAction (filling : Filling) (entry : TerminalId × Action) :
    (filling.addAction s entry).gotos = filling.gotos := rfl

@[simp] theorem actions_addGoto (filling : Filling) (entry : NonterminalId × StateId) :
    (filling.addGoto s entry).actions = filling.actions := rfl

@[simp] theorem gotos_addGoto (filling : Filling) (entry : NonterminalId × StateId) :
    (filling.addGoto s entry).gotos = Cells.registerIn s filling.gotos entry := by
  rw [addGoto, Cells.registerOk_eq, Cells.registerIn]

/-- Everything that an item calls for is registered. -/
theorem fillItem_eq (filling : Filling) (entry : Item × NatSet) :
    fillItem g follow s state filling entry =
      (ParseTable.gotosOf g state entry).foldl (addGoto s)
        ((ParseTable.actionsOf g follow state entry).foldl (addAction s) filling) := by
  rw [fillItem, ParseTable.actionsOf, ParseTable.gotosOf]
  cases g.next? entry.1 with
  | none =>
      by_cases hrule : entry.1.rule = acceptRule
      · simp [hrule]
      · simp [hrule, List.foldl_map]
  | some symbol =>
      cases symbol with
      | terminal t => cases hmove : state.transitions.get? (.terminal t) <;> simp [hmove]
      | nonterminal n => cases hmove : state.transitions.get? (.nonterminal n) <;> simp [hmove]

theorem actions_foldl_addAction (filling : Filling) (entries : List (TerminalId × Action)) :
    (entries.foldl (addAction s) filling).actions =
      entries.foldl (Cells.registerIn s) filling.actions :=
  (List.foldl_hom actions fun _ _ => (actions_addAction _ _).symm).symm

theorem gotos_foldl_addGoto (filling : Filling) (entries : List (NonterminalId × StateId)) :
    (entries.foldl (addGoto s) filling).gotos =
      entries.foldl (Cells.registerIn s) filling.gotos :=
  (List.foldl_hom gotos fun _ _ => (gotos_addGoto _ _).symm).symm

theorem actions_foldl_addGoto (filling : Filling) (entries : List (NonterminalId × StateId)) :
    (entries.foldl (addGoto s) filling).actions = filling.actions := by
  induction entries generalizing filling with
  | nil => rfl
  | cons entry rest ih => rw [List.foldl_cons, ih, actions_addGoto]

theorem gotos_foldl_addAction (filling : Filling) (entries : List (TerminalId × Action)) :
    (entries.foldl (addAction s) filling).gotos = filling.gotos := by
  induction entries generalizing filling with
  | nil => rfl
  | cons entry rest ih => rw [List.foldl_cons, ih, gotos_addAction]

theorem actions_fillState (filling : Filling) (row : ParserState × StateId) :
    (fillState g follow filling row).actions =
      (row.1.items.entries.flatMap (ParseTable.actionsOf g follow row.1)).foldl
        (Cells.registerIn row.2) filling.actions := by
  rw [List.foldl_flatMap, fillState]
  refine (List.foldl_hom actions fun filling entry => ?_).symm
  rw [fillItem_eq, actions_foldl_addGoto, actions_foldl_addAction]

theorem gotos_fillState (filling : Filling) (row : ParserState × StateId) :
    (fillState g follow filling row).gotos =
      (row.1.items.entries.flatMap (ParseTable.gotosOf g row.1)).foldl
        (Cells.registerIn row.2) filling.gotos := by
  rw [List.foldl_flatMap, fillState]
  refine (List.foldl_hom gotos fun filling entry => ?_).symm
  rw [fillItem_eq, gotos_foldl_addGoto, gotos_foldl_addAction]

/-- The actions of all rows, in one map. -/
theorem actions_ofStates (states : List ParserState) :
    (ofStates g states follow).actions = Cells.fillRows
      (fun state => state.items.entries.flatMap (ParseTable.actionsOf g follow state)) states :=
  (List.foldl_hom actions fun filling row => (actions_fillState filling row).symm).symm

theorem gotos_ofStates (states : List ParserState) :
    (ofStates g states follow).gotos = Cells.fillRows
      (fun state => state.items.entries.flatMap (ParseTable.gotosOf g state)) states :=
  (List.foldl_hom gotos fun filling row => (gotos_fillState filling row).symm).symm

theorem slot_actions_ofStates (kind : TableKind) {states : List ParserState} (s : StateId)
    (t : TerminalId) :
    (ofStates g states follow).actions.slot (s, t) =
      ((ParseTable.ofStates kind g states follow).row s).actions.slot t := by
  rw [Cells.slot, actions_ofStates, Cells.get?_fillRows, ParseTable.row_ofStates, Cells.slot]
  cases states[s]? <;> rfl

theorem slot_gotos_ofStates (kind : TableKind) {states : List ParserState} (s : StateId)
    (n : NonterminalId) :
    (ofStates g states follow).gotos.slot (s, n) =
      ((ParseTable.ofStates kind g states follow).row s).gotos.slot n := by
  rw [Cells.slot, gotos_ofStates, Cells.get?_fillRows, ParseTable.row_ofStates, Cells.slot]
  cases states[s]? <;> rfl

/-! ## The flag -/

/-- Whether the flag tells whether some cell has a conflict. -/
def IsTruthful (filling : Filling) : Prop :=
  filling.consistent = true ↔ (∀ k, (filling.actions.slot k).isConflict = false) ∧
    ∀ k, (filling.gotos.slot k).isConflict = false

theorem isTruthful_start : start.IsTruthful :=
  iff_of_true rfl ⟨fun _ => rfl, fun _ => rfl⟩

theorem IsTruthful.addAction {filling : Filling} (h : filling.IsTruthful) (s : StateId)
    (entry : TerminalId × Action) : (filling.addAction s entry).IsTruthful := by
  rw [IsTruthful] at h ⊢
  rw [actions_addAction, gotos_addAction, Cells.registerIn,
    Cells.forall_isConflict_register_iff, and_right_comm, ← h, Filling.addAction,
    Cells.registerOk_eq]
  simp

theorem IsTruthful.addGoto {filling : Filling} (h : filling.IsTruthful) (s : StateId)
    (entry : NonterminalId × StateId) : (filling.addGoto s entry).IsTruthful := by
  rw [IsTruthful] at h ⊢
  rw [actions_addGoto, gotos_addGoto, Cells.registerIn,
    Cells.forall_isConflict_register_iff, ← and_assoc, ← h, Filling.addGoto,
    Cells.registerOk_eq]
  simp

theorem IsTruthful.fillItem {filling : Filling} (h : filling.IsTruthful)
    (entry : Item × NatSet) : (fillItem g follow s state filling entry).IsTruthful := by
  rw [fillItem_eq]
  exact foldl_keeps (fun _ entry _ h => h.addGoto s entry)
    (foldl_keeps (fun _ entry _ h => h.addAction s entry) h)

theorem isTruthful_ofStates (g : Grammar) (states : List ParserState)
    (follow : Option FollowSets) : (ofStates g states follow).IsTruthful :=
  foldl_keeps (fun _ _ _ h => foldl_keeps (fun _ entry _ h => h.fillItem entry) h)
    isTruthful_start

/-- Whether the filled cells are those of the table, in its order, and the flag tells
whether it is deterministic. -/
structure Gives (filling : Filling) (table : ParseTable) : Prop where
  actions_eq : filling.actions.entries.map (fun entry => (entry.1.1, entry.1.2, entry.2)) =
    table.actions
  gotos_eq : filling.gotos.entries.map (fun entry => (entry.1.1, entry.1.2, entry.2)) =
    table.gotos
  consistent_eq : filling.consistent = table.isDeterministic

theorem gives_ofStates (kind : TableKind) (g : Grammar) (states : List ParserState)
    (follow : Option FollowSets) :
    (ofStates g states follow).Gives (.ofStates kind g states follow) where
  actions_eq := by
    rw [actions_ofStates, Cells.entries_fillRows]
    simp [ParseTable.actions, ParseTable.ofStates, ParseTable.rowOf, Cells.entriesIn,
      List.zipIdx_map, List.flatMap_map, List.map_flatMap, Function.comp_def]
  gotos_eq := by
    rw [gotos_ofStates, Cells.entries_fillRows]
    simp [ParseTable.gotos, ParseTable.ofStates, ParseTable.rowOf, Cells.entriesIn,
      List.zipIdx_map, List.flatMap_map, List.map_flatMap, Function.comp_def]
  consistent_eq := by
    have hflag := isTruthful_ofStates g states follow
    rw [IsTruthful] at hflag
    rw [Bool.eq_iff_iff, hflag, ParseTable.isDeterministic_iff_slots, forall_and]
    simp only [Prod.forall, slot_actions_ofStates kind, slot_gotos_ofStates kind]

end Filling

/-! ## What a state calls for -/

namespace TableKind

/-- The states of the tables of the kind. -/
def statesOf (g : Grammar) : TableKind → List ParserState
  | slr1 => g.lr0States
  | lr1 => g.canonicalAutomaton.parserStates
  | lalr1 => g.canonicalAutomaton.mergeCores

/-- The FOLLOW sets of the grammar, if tables of the kind reduce on them. -/
def follow? (g : Grammar) : TableKind → Option FollowSets
  | slr1 => some (FollowSets.ofGrammar g (.ofGrammar g))
  | lr1 | lalr1 => none

/-- Whether tables of the kind reduce a complete item of the state on the terminal: on
what follows the head of its rule, or on its own lookaheads. -/
def ReducesAt (kind : TableKind) (g : Grammar) (state : ParserState) (item : Item)
    (t : TerminalId) : Prop :=
  match kind with
  | slr1 => ∃ rule, g.rules.get? item.rule = some rule ∧ g.Follows rule.head t
  | lr1 | lalr1 => state.items.Looks item t

end TableKind

/-- Whether an item of the state calls for the action on the terminal in tables of the kind. -/
inductive ParserState.Calls (kind : TableKind) (g : Grammar) (state : ParserState) :
    TerminalId → Action → Prop
  | shift {item : Item} {t : TerminalId} {next : StateId} (mem : item ∈ state.items.cores)
      (expects : g.next? item = some (.terminal t))
      (move : state.transitions.get? (.terminal t) = some next) :
      Calls kind g state t (.shift next)
  | accept {item : Item} (mem : item ∈ state.items.cores) (complete : g.next? item = none)
      (eq : item.rule = acceptRule) : Calls kind g state endOfInput .accept
  | reduce {item : Item} {t : TerminalId} (mem : item ∈ state.items.cores)
      (complete : g.next? item = none) (ne : item.rule ≠ acceptRule)
      (reduces : kind.ReducesAt g state item t) : Calls kind g state t (.reduce item.rule)

/-- Whether the row holds, each once, the actions that the items of the state call for.
The state has a transition over every symbol that one of its items expects. -/
structure TableRow.IsExactFor (row : TableRow) (kind : TableKind) (g : Grammar)
    (state : ParserState) : Prop where
  nodup : ∀ t, (row.actions.slot t).values.Nodup
  mem_iff : ∀ t action, action ∈ (row.actions.slot t).values ↔ state.Calls kind g t action
  exists_next : ∀ item ∈ state.items.cores, ∀ symbol, g.next? item = some symbol →
    ∃ next, state.transitions.get? symbol = some next

variable {g a : Grammar} {kind : TableKind} {state : ParserState}

theorem Grammar.parseTable?_eq_ofStates (haccept : g.withAcceptRule? = some a)
    (kind : TableKind) :
    g.parseTable? kind = some (.ofStates kind a (kind.statesOf a) (kind.follow? a)) := by
  rw [parseTable?_eq haccept]
  cases kind <;> rfl

namespace Grammar.IsAugmentation

theorem mem_reduceLookaheads_iff (h : g.IsAugmentation a) {entry : Item × NatSet}
    (hentry : entry ∈ state.items.entries) {t : TerminalId} :
    t ∈ ParseTable.reduceLookaheads a (kind.follow? a) entry.1 entry.2 ↔
      kind.ReducesAt a state entry.1 t := by
  have hknown := ItemSet.lookaheads?_eq_some_iff.mpr hentry
  cases kind with
  | slr1 => exact ItemAutomaton.mem_reduceLookaheads_iff h
  | lr1 | lalr1 =>
      simp [ParseTable.reduceLookaheads, TableKind.follow?, TableKind.ReducesAt, ItemSet.Looks,
        hknown]

theorem exists_mem_actionsOf_iff (h : g.IsAugmentation a) {t : TerminalId} {action : Action} :
    (∃ entry ∈ state.items.entries,
      (t, action) ∈ ParseTable.actionsOf a (kind.follow? a) state entry) ↔
      state.Calls kind a t action := by
  constructor
  · rintro ⟨entry, hentry, haction⟩
    have hmem : entry.1 ∈ state.items.cores := List.mem_map_of_mem hentry
    rcases ParseTable.mem_actionsOf.mp haction with
      ⟨next, hnext, hmove, rfl⟩ | ⟨hnext, hrule, rfl, ht⟩ | ⟨hnext, hrule, rfl, rfl⟩
    · exact .shift hmem hnext hmove
    · exact .reduce hmem hnext hrule ((h.mem_reduceLookaheads_iff hentry).mp ht)
    · exact .accept hmem hnext hrule
  · intro hcalls
    cases hcalls with
    | shift mem expects move =>
        obtain ⟨entry, hentry, rfl⟩ := List.mem_map.mp mem
        exact ⟨entry, hentry, ParseTable.mem_actionsOf.mpr (.inl ⟨_, expects, move, rfl⟩)⟩
    | accept mem complete eq =>
        obtain ⟨entry, hentry, rfl⟩ := List.mem_map.mp mem
        exact ⟨entry, hentry,
          ParseTable.mem_actionsOf.mpr (.inr (.inr ⟨complete, eq, rfl, rfl⟩))⟩
    | reduce mem complete ne reduces =>
        obtain ⟨entry, hentry, rfl⟩ := List.mem_map.mp mem
        have ht := (h.mem_reduceLookaheads_iff hentry).mpr reduces
        exact ⟨entry, hentry,
          ParseTable.mem_actionsOf.mpr (.inr (.inl ⟨complete, ne, rfl, ht⟩))⟩

/-- The states of each kind are those of an automaton. -/
theorem exists_automaton (h : g.IsAugmentation a) (kind : TableKind) :
    ∃ A : LRAutomaton a, A.states = kind.statesOf a := by
  cases kind with
  | slr1 => exact ⟨ItemAutomaton.toLRAutomaton h, rfl⟩
  | lr1 => exact ⟨CanonicalAutomaton.toLRAutomaton h, rfl⟩
  | lalr1 => exact ⟨CanonicalAutomaton.toMergedLRAutomaton h, rfl⟩

/-- The row of a state holds exactly what its items call for. -/
theorem isExactFor_row (h : g.IsAugmentation a) {s : StateId}
    (hstate : (kind.statesOf a)[s]? = some state) :
    ((ParseTable.ofStates kind a (kind.statesOf a) (kind.follow? a)).row s).IsExactFor
      kind a state where
  nodup := fun _ => ParseTable.nodup_action_ofStates
  mem_iff := by
    intro t action
    rw [ParseTable.mem_action_ofStates, ← h.exists_mem_actionsOf_iff]
    simp [hstate]
  exists_next := by
    intro item hitem symbol hnext
    obtain ⟨A, hA⟩ := h.exists_automaton kind
    rw [← hA] at hstate
    obtain ⟨next, state', hstate', hmove⟩ := A.exists_next ⟨state, hstate, hitem⟩ hnext
    obtain rfl := Option.some.inj (hstate.symm.trans hstate')
    exact ⟨next, hmove⟩

end Grammar.IsAugmentation

end GrammarAnalysis

import GrammarAnalysis.Proofs.ShiftReduce.Automaton
import GrammarAnalysis.Proofs.Table.Cells
import GrammarAnalysis.ShiftReduce.Table

/-!
# What the cells of a table stand for

The cells of a table hold exactly the actions and the gotos that the items of
its states call for.  A parser follows the first entry of a cell, which in a
deterministic table is the only one.
-/

namespace GrammarAnalysis

/-- Whether a complete item of the state is reduced on the terminal. -/
def ReducesOn (g : Grammar) (follow : Option FollowSets) (states : List ParserState)
    (s : StateId) (item : Item) (t : TerminalId) : Prop :=
  ∃ state own, states[s]? = some state ∧ state.items.lookaheads? item = some own ∧
    t ∈ ParseTable.reduceLookaheads g follow item own

namespace LRAutomaton

variable {g : Grammar}

/-- Whether some item of the state calls for the action on the terminal. -/
inductive Calls (A : LRAutomaton g) : StateId → TerminalId → Action → Prop
  | shift {s next : StateId} {item : Item} {t : TerminalId} (holds : HoldsAt A.states s item)
      (expects : g.next? item = some (.terminal t))
      (move : MovesTo A.states s (.terminal t) next) : Calls A s t (.shift next)
  | reduce {s : StateId} {item : Item} {t : TerminalId} (looks : A.looks s item t)
      (complete : g.next? item = none) (ne : item.rule ≠ acceptRule) :
      Calls A s t (.reduce item.rule)
  | accept {s : StateId} {item : Item} (holds : HoldsAt A.states s item)
      (complete : g.next? item = none) (eq : item.rule = acceptRule) :
      Calls A s endOfInput .accept

/-- Whether the cells of the table hold what the items of the automaton call for. -/
structure Drives (A : LRAutomaton g) (table : ParseTable) : Prop where
  grammar_eq : table.grammar = g
  states_eq : table.states = A.states
  mem_action_iff : ∀ s t action,
    action ∈ ((table.row s).actions.slot t).values ↔ A.Calls s t action
  mem_goto_iff : ∀ s n next, next ∈ ((table.row s).gotos.slot n).values ↔
    (∃ item, HoldsAt A.states s item ∧ g.next? item = some (.nonterminal n)) ∧
      MovesTo A.states s (.nonterminal n) next

end LRAutomaton

namespace ParseTable

variable {g : Grammar}

theorem mem_actionsOf {follow : Option FollowSets} {state : ParserState}
    {entry : Item × NatSet} {t : TerminalId} {action : Action} :
    (t, action) ∈ actionsOf g follow state entry ↔
      (∃ next, g.next? entry.1 = some (.terminal t) ∧
        state.transitions.get? (.terminal t) = some next ∧ action = .shift next) ∨
      (g.next? entry.1 = none ∧ entry.1.rule ≠ acceptRule ∧ action = .reduce entry.1.rule ∧
        t ∈ reduceLookaheads g follow entry.1 entry.2) ∨
      g.next? entry.1 = none ∧ entry.1.rule = acceptRule ∧ t = endOfInput ∧ action = .accept := by
  rw [actionsOf]
  cases hnext : g.next? entry.1 with
  | none =>
      by_cases hrule : entry.1.rule = acceptRule
      · simp [hrule]
      · simp [hrule, and_comm, eq_comm]
  | some s =>
      cases s with
      | terminal u =>
          simp only [List.mem_map, Option.mem_toList, Option.some.injEq, Symbol.terminal.injEq,
            Prod.mk.injEq, reduceCtorEq, false_and, or_false]
          constructor
          · rintro ⟨next, hget, rfl, rfl⟩
            exact ⟨next, rfl, hget, rfl⟩
          · rintro ⟨next, rfl, hget, rfl⟩
            exact ⟨next, hget, rfl, rfl⟩
      | nonterminal n => simp

theorem mem_gotosOf {state : ParserState} {entry : Item × NatSet} {n : NonterminalId}
    {next : StateId} :
    (n, next) ∈ gotosOf g state entry ↔
      g.next? entry.1 = some (.nonterminal n) ∧
        state.transitions.get? (.nonterminal n) = some next := by
  rw [gotosOf]
  cases hnext : g.next? entry.1 with
  | none => simp
  | some s =>
      cases s with
      | terminal u => simp
      | nonterminal m =>
          simp only [List.mem_map, Option.mem_toList, Option.some.injEq,
            Symbol.nonterminal.injEq, Prod.mk.injEq]
          constructor
          · rintro ⟨next, hget, rfl, rfl⟩
            exact ⟨rfl, hget⟩
          · rintro ⟨rfl, hget⟩
            exact ⟨next, hget, rfl, rfl⟩

theorem row_ofStates {kind : TableKind} {states : List ParserState}
    {follow : Option FollowSets} {s : StateId} :
    (ofStates kind g states follow).row s =
      ((states[s]?).map (rowOf g follow)).getD ⟨∅, ∅⟩ := by
  simp [row, ofStates]

theorem mem_action_ofStates {kind : TableKind} {states : List ParserState}
    {follow : Option FollowSets} {s : StateId} {t : TerminalId} {action : Action} :
    action ∈ (((ofStates kind g states follow).row s).actions.slot t).values ↔
      ∃ state, states[s]? = some state ∧
        ∃ entry ∈ state.items.entries, (t, action) ∈ actionsOf g follow state entry := by
  rw [row_ofStates]
  cases hstate : states[s]? with
  | none => simp [Cells.slot, Slot.empty]
  | some state => simp [rowOf, Cells.mem_slot_ofRegistrations]

theorem mem_goto_ofStates {kind : TableKind} {states : List ParserState}
    {follow : Option FollowSets} {s : StateId} {n : NonterminalId} {next : StateId} :
    next ∈ (((ofStates kind g states follow).row s).gotos.slot n).values ↔
      ∃ state, states[s]? = some state ∧
        ∃ entry ∈ state.items.entries, (n, next) ∈ gotosOf g state entry := by
  rw [row_ofStates]
  cases hstate : states[s]? with
  | none => simp [Cells.slot, Slot.empty]
  | some state => simp [rowOf, Cells.mem_slot_ofRegistrations]

/-- The table made from the states of an automaton follows its items. -/
theorem drives_ofStates (A : LRAutomaton g) (kind : TableKind) {follow : Option FollowSets}
    (hlooks : ∀ s item t, A.looks s item t ↔ ReducesOn g follow A.states s item t) :
    A.Drives (ofStates kind g A.states follow) where
  grammar_eq := rfl
  states_eq := rfl
  mem_action_iff := by
    intro s t action
    rw [mem_action_ofStates]
    constructor
    · rintro ⟨state, hstate, ⟨item, own⟩, hentry, haction⟩
      have hholds : HoldsAt A.states s item := ⟨state, hstate, List.mem_map_of_mem hentry⟩
      rcases mem_actionsOf.mp haction with
        ⟨next, hnext, hmove, rfl⟩ | ⟨hnext, hrule, rfl, ht⟩ | ⟨hnext, hrule, rfl, rfl⟩
      · exact .shift hholds hnext ⟨state, hstate, hmove⟩
      · have hown := ItemSet.lookaheads?_eq_some_iff.mpr hentry
        exact .reduce ((hlooks s item t).mpr ⟨state, own, hstate, hown, ht⟩) hnext hrule
      · exact .accept hholds hnext hrule
    · intro hcalls
      cases hcalls with
      | @shift next item _ holds hnext move =>
          obtain ⟨state, hstate, hitem⟩ := holds
          obtain ⟨state', hstate', hmove⟩ := move
          obtain ⟨entry, hentry, rfl⟩ := List.mem_map.mp hitem
          rw [hstate, Option.some.injEq] at hstate'
          rw [← hstate'] at hmove
          exact ⟨state, hstate, entry, hentry, mem_actionsOf.mpr
            (Or.inl ⟨next, hnext, hmove, rfl⟩)⟩
      | @reduce item _ looks hnext hrule =>
          obtain ⟨state, own, hstate, hown, ht⟩ := (hlooks s item t).mp looks
          exact ⟨state, hstate, (item, own), ItemSet.lookaheads?_eq_some_iff.mp hown,
            mem_actionsOf.mpr (Or.inr (Or.inl ⟨hnext, hrule, rfl, ht⟩))⟩
      | @accept item holds hnext hrule =>
          obtain ⟨state, hstate, hitem⟩ := holds
          obtain ⟨entry, hentry, rfl⟩ := List.mem_map.mp hitem
          exact ⟨state, hstate, entry, hentry, mem_actionsOf.mpr
            (Or.inr (Or.inr ⟨hnext, hrule, rfl, rfl⟩))⟩
  mem_goto_iff := by
    intro s n next
    rw [mem_goto_ofStates]
    constructor
    · rintro ⟨state, hstate, ⟨item, own⟩, hentry, hgoto⟩
      obtain ⟨hnext, hmove⟩ := mem_gotosOf.mp hgoto
      exact ⟨⟨item, ⟨state, hstate, List.mem_map_of_mem hentry⟩, hnext⟩, state, hstate, hmove⟩
    · rintro ⟨⟨item, ⟨state, hstate, hitem⟩, hnext⟩, state', hstate', hmove⟩
      obtain ⟨entry, hentry, rfl⟩ := List.mem_map.mp hitem
      rw [hstate, Option.some.injEq] at hstate'
      rw [← hstate'] at hmove
      exact ⟨state, hstate, entry, hentry, mem_gotosOf.mpr ⟨hnext, hmove⟩⟩

/-- The listed action cells are those of the rows. -/
theorem mem_actions_iff {table : ParseTable} {s : StateId} {t : TerminalId}
    {slot : Slot Action} :
    (s, t, slot) ∈ table.actions ↔ (table.row s).actions.get? t = some slot := by
  have hlisted : (s, t, slot) ∈ table.actions ↔
      ∃ row, table.rows[s]? = some row ∧ row.actions.get? t = some slot := by
    simp only [actions, List.mem_flatMap, List.mem_map, Prod.exists, Prod.mk.injEq,
      List.mem_zipIdx_iff_getElem?, OrderedMap.get?_eq_some_iff]
    constructor
    · rintro ⟨row, s, hrow, t, slot, hmem, rfl, rfl, rfl⟩
      exact ⟨row, hrow, hmem⟩
    · rintro ⟨row, hrow, hmem⟩
      exact ⟨row, s, hrow, t, slot, hmem, rfl, rfl, rfl⟩
  rw [hlisted, row]
  cases table.rows[s]? <;> simp

/-- A table is deterministic exactly if none of its cells has a conflict. -/
theorem isDeterministic_iff_slots {table : ParseTable} :
    table.isDeterministic = true ↔
      ∀ s, (∀ t, ((table.row s).actions.slot t).isConflict = false) ∧
        ∀ n, ((table.row s).gotos.slot n).isConflict = false := by
  constructor
  · intro h s
    rw [row]
    cases hrow : table.rows[s]? with
    | none => exact ⟨fun _ => rfl, fun _ => rfl⟩
    | some row =>
        have hall := List.all_eq_true.mp h row (List.mem_of_getElem? hrow)
        rw [Bool.and_eq_true] at hall
        exact ⟨Cells.isConflict_slot_eq_false hall.1, Cells.isConflict_slot_eq_false hall.2⟩
  · intro h
    refine List.all_eq_true.mpr fun row hrow => ?_
    obtain ⟨s, hs⟩ := List.mem_iff_getElem?.mp hrow
    have hslots := h s
    rw [ParseTable.row, hs, Option.getD_some] at hslots
    rw [Bool.and_eq_true]
    exact ⟨Cells.all_isConflict_eq_false hslots.1, Cells.all_isConflict_eq_false hslots.2⟩

theorem slots_of_isDeterministic {table : ParseTable} (h : table.isDeterministic = true)
    (s : StateId) (t : TerminalId) :
    ((table.row s).actions.slot t).isConflict = false :=
  (isDeterministic_iff_slots.mp h s).1 t

/-- A cell of a table that is made from states lists each entry once. -/
theorem nodup_action_ofStates {kind : TableKind} {states : List ParserState}
    {follow : Option FollowSets} {s : StateId} {t : TerminalId} :
    (((ofStates kind g states follow).row s).actions.slot t).values.Nodup := by
  rw [row_ofStates]
  cases states[s]? with
  | none => exact List.nodup_nil
  | some state => exact Cells.nodup_slot_ofRegistrations _ t

theorem nodup_goto_ofStates {kind : TableKind} {states : List ParserState}
    {follow : Option FollowSets} {s : StateId} {n : NonterminalId} :
    (((ofStates kind g states follow).row s).gotos.slot n).values.Nodup := by
  rw [row_ofStates]
  cases states[s]? with
  | none => exact List.nodup_nil
  | some state => exact Cells.nodup_slot_ofRegistrations _ n

/-- A state has one transition over a symbol, so no cell of gotos has a conflict. -/
theorem isConflict_goto_ofStates {kind : TableKind} {states : List ParserState}
    {follow : Option FollowSets} {s : StateId} {n : NonterminalId} :
    (((ofStates kind g states follow).row s).gotos.slot n).isConflict = false := by
  refine Slot.isConflict_eq_false nodup_goto_ofStates fun next hnext other hother => ?_
  obtain ⟨state, hstate, entry, -, hgoto⟩ := mem_goto_ofStates.mp hnext
  obtain ⟨state', hstate', entry', -, hgoto'⟩ := mem_goto_ofStates.mp hother
  obtain rfl : state = state' := Option.some.inj (hstate.symm.trans hstate')
  exact Option.some.inj ((mem_gotosOf.mp hgoto).2.symm.trans (mem_gotosOf.mp hgoto').2)

end ParseTable

namespace LRAutomaton

variable {g : Grammar} {A : LRAutomaton g} {table : ParseTable}

theorem Drives.calls_of_action? (h : A.Drives table) {s : StateId} {t : TerminalId}
    {action : Action} (haction : table.action? s t = some action) : A.Calls s t action :=
  (h.mem_action_iff s t action).mp (Slot.mem_of_first? haction)

/-- In a deterministic table a cell holds the one action that is called for. -/
theorem Drives.action?_eq (h : A.Drives table) (hdet : table.isDeterministic = true)
    {s : StateId} {t : TerminalId} {action : Action} (hcalls : A.Calls s t action) :
    table.action? s t = some action :=
  Slot.first?_eq_of_mem (table.slots_of_isDeterministic hdet s t)
    ((h.mem_action_iff s t action).mpr hcalls)

theorem Drives.move_of_goto? (h : A.Drives table) {s next : StateId} {n : NonterminalId}
    (hgoto : table.goto? s n = some next) : MovesTo A.states s (.nonterminal n) next :=
  ((h.mem_goto_iff s n next).mp (Slot.mem_of_first? hgoto)).2

/-- A state that expects a nonterminal has a goto on it. -/
theorem Drives.goto?_eq (h : A.Drives table) {s next : StateId} {n : NonterminalId}
    {item : Item} (hitem : HoldsAt A.states s item)
    (hnext : g.next? item = some (.nonterminal n))
    (move : MovesTo A.states s (.nonterminal n) next) : table.goto? s n = some next := by
  refine Slot.first?_eq_of_forall ((h.mem_goto_iff s n next).mpr ⟨⟨item, hitem, hnext⟩, move⟩) ?_
  intro other hother
  exact ((h.mem_goto_iff s n other).mp hother).2.eq move

end LRAutomaton

end GrammarAnalysis

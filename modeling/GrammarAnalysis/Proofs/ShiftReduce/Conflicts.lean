import GrammarAnalysis.Proofs.ShiftReduce.Hierarchy

/-!
# Conflicts of shift-reduce tables

The listed conflicts of a table are its action cells with more than one entry.
Cells of gotos have no conflicts, so a table is deterministic exactly if none is
listed (`Grammar.IsPlain.isDeterministic_iff`).

A class of canonical states shifts and accepts where each state of the class
does, and reduces where some state of the class does.  So an action that is no
reduction meets every other action of its cell in one canonical state already,
and merging brings together nothing but reductions.
-/

namespace GrammarAnalysis

variable {g a : Grammar}

/-! ## Conflicting cells -/

/-- A conflicting cell holds a value other than the given one. -/
theorem Slot.exists_ne_of_isConflict {α : Type} {slot : Slot α} (hnodup : slot.values.Nodup)
    (hconflict : slot.isConflict = true) (v : α) : ∃ u ∈ slot.values, v ≠ u := by
  by_contra hnone
  have hsame : ∀ u ∈ slot.values, v = u := by
    intro u hu
    by_contra hne
    exact hnone ⟨u, hu, hne⟩
  have hfalse : slot.isConflict = false :=
    isConflict_eq_false hnodup fun u hu w hw => (hsame u hu).symm.trans (hsame w hw)
  rw [hconflict] at hfalse
  contradiction

namespace ParseTable

theorem mem_conflicts_iff {table : ParseTable} {s : StateId} {t : TerminalId}
    {slot : Slot Action} :
    (s, t, slot) ∈ table.conflicts ↔
      (table.row s).actions.slot t = slot ∧ slot.isConflict = true := by
  rw [conflicts, List.mem_filter, mem_actions_iff, Cells.slot]
  constructor
  · rintro ⟨hget, hconflict⟩
    exact ⟨by rw [hget, Option.getD_some], hconflict⟩
  · rintro ⟨rfl, hconflict⟩
    refine ⟨?_, hconflict⟩
    cases hget : (table.row s).actions.get? t with
    | none =>
        rw [hget] at hconflict
        contradiction
    | some slot => rfl

theorem conflicts_eq_nil_iff {table : ParseTable} :
    table.conflicts = [] ↔ ∀ s t, ((table.row s).actions.slot t).isConflict = false := by
  constructor
  · intro hnone s t
    rw [← Bool.not_eq_true]
    intro hconflict
    have hlisted := mem_conflicts_iff.mpr ⟨rfl, hconflict⟩
    rw [hnone] at hlisted
    exact List.not_mem_nil hlisted
  · intro h
    apply List.eq_nil_iff_forall_not_mem.mpr
    rintro ⟨s, t, slot⟩ hlisted
    obtain ⟨rfl, hconflict⟩ := mem_conflicts_iff.mp hlisted
    rw [h] at hconflict
    contradiction

/-- Since no cell of gotos has a conflict, the action cells decide. -/
theorem isDeterministic_ofStates_iff {kind : TableKind} {states : List ParserState}
    {follow : Option FollowSets} :
    (ofStates kind g states follow).isDeterministic = true ↔
      (ofStates kind g states follow).conflicts = [] := by
  rw [isDeterministic_iff_slots, conflicts_eq_nil_iff]
  constructor
  · exact fun h s => (h s).1
  · exact fun h s => ⟨h s, fun _ => isConflict_goto_ofStates⟩

end ParseTable

/-- The table of a plain grammar is deterministic exactly if it has no conflict. -/
theorem Grammar.IsPlain.isDeterministic_iff (hg : g.IsPlain) {kind : TableKind}
    {table : ParseTable} (htable : g.parseTable? kind = some table) :
    table.isDeterministic = true ↔ table.conflicts = [] := by
  obtain ⟨a, haccept, -⟩ := hg.exists_isAugmentation
  rw [parseTable?_eq haccept, Option.some.injEq] at htable
  subst htable
  cases kind <;> exact ParseTable.isDeterministic_ofStates_iff

/-! ## Conflicts that come from merging -/

namespace CanonicalAutomaton

variable {q k : StateId} {t : TerminalId} {action : Action}

/-- Where a class shifts or accepts, every state it represents does so. -/
theorem Represents.exists_calls (h : g.IsAugmentation a)
    (hk : a.canonicalAutomaton.Represents q k)
    (hcalls : (toMergedLRAutomaton h).Calls q t action) (hne : ∀ id, action ≠ .reduce id) :
    ∃ action', (toLRAutomaton h).Calls k t action' ∧
      action'.withoutTarget = action.withoutTarget := by
  cases hcalls with
  | shift holds expects _ =>
      have hitem := hk.holdsAt_iff.mp holds
      obtain ⟨next, move⟩ := (toLRAutomaton h).exists_next hitem expects
      exact ⟨.shift next, .shift hitem expects move, rfl⟩
  | reduce => exact absurd rfl (hne _)
  | accept holds complete eq =>
      exact ⟨.accept, .accept (hk.holdsAt_iff.mp holds) complete eq, rfl⟩

/-- What a class calls for is called for in one of the states it represents. -/
theorem exists_represents_calls (h : g.IsAugmentation a)
    (hcalls : (toMergedLRAutomaton h).Calls q t action) :
    ∃ k action', a.canonicalAutomaton.Represents q k ∧ (toLRAutomaton h).Calls k t action' ∧
      action'.withoutTarget = action.withoutTarget := by
  cases hcalls with
  | reduce looks complete ne =>
      obtain ⟨k, hk, hlooks⟩ := looks
      exact ⟨k, _, hk, .reduce hlooks complete ne, rfl⟩
  | shift holds expects move =>
      obtain ⟨k, hk⟩ := exists_represents holds.lt
      obtain ⟨action', hcalls', hsame⟩ := hk.exists_calls h (.shift holds expects move) (by simp)
      exact ⟨k, action', hk, hcalls', hsame⟩
  | accept holds complete eq =>
      obtain ⟨k, hk⟩ := exists_represents holds.lt
      obtain ⟨action', hcalls', hsame⟩ := hk.exists_calls h (.accept holds complete eq) (by simp)
      exact ⟨k, action', hk, hcalls', hsame⟩

/-- If canonical states call for one action at most, then an action that a class calls
for beside another one is a reduction. -/
theorem exists_eq_reduce (h : g.IsAugmentation a) (hfree : (toLRAutomaton h).IsConflictFree)
    {action' : Action} (hcalls : (toMergedLRAutomaton h).Calls q t action)
    (hcalls' : (toMergedLRAutomaton h).Calls q t action') (hne : action ≠ action') :
    ∃ id, action = .reduce id := by
  by_contra hreduce
  obtain ⟨k, called', hk, hcalled', hsame'⟩ := exists_represents_calls h hcalls'
  obtain ⟨called, hcalled, hsame⟩ :=
    hk.exists_calls h hcalls fun id heq => hreduce ⟨id, heq⟩
  -- both actions are called for in the one state `k`
  have heq : called = called' := hfree k t _ _ hcalled hcalled'
  apply hne
  apply hcalls.eq_of_withoutTarget_eq hcalls'
  rw [← hsame, ← hsame', heq]

end CanonicalAutomaton

/-- For every grammar that is read from text: if its LR(1) table is deterministic,
then every conflicting action cell of its LALR(1) table holds reductions only. -/
theorem Grammar.exists_merged_conflicts_reduce {text : String} (hg : Grammar.ofText text = .ok g) :
    ∃ lr lalr, g.parseTable? .lr1 = some lr ∧ g.parseTable? .lalr1 = some lalr ∧
      (lr.isDeterministic = true → ∀ s t slot, (s, t, slot) ∈ lalr.conflicts →
        ∀ action ∈ slot.values, ∃ id, action = .reduce id) := by
  obtain ⟨a, haccept, h⟩ := (isPlain_of_ofText hg).exists_isAugmentation
  refine ⟨_, _, parseTable?_eq haccept .lr1, parseTable?_eq haccept .lalr1, ?_⟩
  intro hdet s t slot hlisted action haction
  have hfree := (CanonicalAutomaton.drives_lr1 h).isConflictFree hdet
  obtain ⟨rfl, hconflict⟩ := ParseTable.mem_conflicts_iff.mp hlisted
  have hcalls := fun action => (CanonicalAutomaton.drives_lalr1 h).mem_action_iff s t action
  obtain ⟨other, hother, hne⟩ :=
    Slot.exists_ne_of_isConflict ParseTable.nodup_action_ofStates hconflict action
  exact CanonicalAutomaton.exists_eq_reduce h hfree ((hcalls action).mp haction)
    ((hcalls other).mp hother) hne

/-- In this grammar `c` is reduced to `A` or to `B`.  After `a` and after `b` the next
terminal tells which; the state that both lead to after merging reduces to either. -/
theorem Grammar.exists_merged_conflicts_reduce_crossed :
    ∃ g lr lalr s t slot,
      Grammar.ofText "S -> a A d | b B d | a B e | b A e\nA -> c\nB -> c\n" = .ok g ∧
      g.parseTable? .lr1 = some lr ∧ g.parseTable? .lalr1 = some lalr ∧
      lr.isDeterministic = true ∧ (s, t, slot) ∈ lalr.conflicts ∧
      ∀ action ∈ slot.values, ∃ id, action = .reduce id := by
  have hcomputed : (Grammar.ofText
      "S -> a A d | b B d | a B e | b A e\nA -> c\nB -> c\n").toOption.map (fun g =>
        ((g.parseTable? .lr1).map ParseTable.isDeterministic,
          (g.parseTable? .lalr1).map fun table => decide (table.conflicts = []))) =
      some (some true, some false) := by decide +kernel
  obtain ⟨g, hg, hcomputed⟩ := Grammar.exists_of_ofText hcomputed
  obtain ⟨hdet, hconflicts⟩ := Prod.mk.inj hcomputed
  obtain ⟨lr, lalr, hlr, hlalr, hreduce⟩ := Grammar.exists_merged_conflicts_reduce hg
  rw [hlr, Option.map_some, Option.some.injEq] at hdet
  rw [hlalr, Option.map_some, Option.some.injEq, decide_eq_false_iff_not] at hconflicts
  obtain ⟨⟨s, t, slot⟩, hlisted⟩ := List.exists_mem_of_ne_nil _ hconflicts
  exact ⟨g, lr, lalr, s, t, slot, hg, hlr, hlalr, hdet, hlisted, hreduce hdet s t slot hlisted⟩

end GrammarAnalysis

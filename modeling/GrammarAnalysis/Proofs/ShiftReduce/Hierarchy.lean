import GrammarAnalysis.Proofs.ShiftReduce.Correctness

/-!
# The hierarchy of deterministic tables

A table is deterministic exactly if no two items of a state call for different
actions on one terminal.  So determinism passes from an automaton to every
automaton that it covers, that is, whose states have no items or lookaheads that
are missing in some state of the first one.

The canonical automaton is covered by every automaton of the grammar
(`LRAutomaton.covers_canonical`), and the merged one by the LR(0) automaton with
FOLLOW sets (`LRAutomaton.covers_merged`).
-/

namespace GrammarAnalysis

variable {g a : Grammar}

/-! ## Tables without conflicts -/

namespace LRAutomaton

/-- Whether the items of each state call for at most one action on each terminal. -/
def IsConflictFree (A : LRAutomaton g) : Prop :=
  ∀ s t action action', A.Calls s t action → A.Calls s t action' → action = action'

theorem Drives.isConflictFree {A : LRAutomaton g} {table : ParseTable} (hd : A.Drives table)
    (hdet : table.isDeterministic = true) : A.IsConflictFree := by
  intro s t action action' h h'
  exact Slot.eq_of_mem (table.slots_of_isDeterministic hdet s t)
    ((hd.mem_action_iff s t action).mpr h) ((hd.mem_action_iff s t action').mpr h')

/-- The cells of gotos have no conflicts in any case, since a state has one
transition over a symbol. -/
theorem IsConflictFree.isDeterministic {A : LRAutomaton g} (hA : A.IsConflictFree)
    {kind : TableKind} {follow : Option FollowSets}
    (hd : A.Drives (.ofStates kind g A.states follow)) :
    (ParseTable.ofStates kind g A.states follow).isDeterministic = true := by
  refine ParseTable.isDeterministic_iff_slots.mpr fun s => ⟨fun t => ?_, fun n => ?_⟩
  · refine Slot.isConflict_eq_false ParseTable.nodup_action_ofStates ?_
    intro action haction action' haction'
    exact hA s t action action' ((hd.mem_action_iff s t action).mp haction)
      ((hd.mem_action_iff s t action').mp haction')
  · exact ParseTable.isConflict_goto_ofStates

end LRAutomaton

/-! ## Covering -/

/-- The action without the state to which a shift leads. -/
def Action.withoutTarget : Action → Action
  | .shift _ => .shift 0
  | action => action

namespace LRAutomaton

/-- Whether the state `s` of the one automaton has all items and lookaheads of the
state `q` of the other one. -/
structure CoversState (A B : LRAutomaton g) (s q : StateId) : Prop where
  holds : ∀ item, HoldsAt B.states q item → HoldsAt A.states s item
  looks : ∀ item t, B.looks q item t → A.looks s item t

/-- Whether every state of the other automaton that has an item is covered. -/
def Covers (A B : LRAutomaton g) : Prop :=
  ∀ q, (∃ item, HoldsAt B.states q item) → ∃ s, A.CoversState B s q

theorem Calls.exists_holdsAt {A : LRAutomaton g} {s : StateId} {t : TerminalId} {action : Action}
    (h : A.Calls s t action) : ∃ item, HoldsAt A.states s item := by
  cases h with
  | shift holds => exact ⟨_, holds⟩
  | reduce looks => exact ⟨_, A.holds_of_looks looks⟩
  | accept holds => exact ⟨_, holds⟩

/-- Actions of one state on one terminal that differ at most in the target are equal. -/
theorem Calls.eq_of_withoutTarget_eq {A : LRAutomaton g} {s : StateId} {t : TerminalId}
    {action action' : Action} (h : A.Calls s t action) (h' : A.Calls s t action')
    (hsame : action.withoutTarget = action'.withoutTarget) : action = action' := by
  cases h with
  | shift _ _ move =>
      cases h' with
      | shift _ _ move' => rw [move.eq move']
      | reduce | accept => simp [Action.withoutTarget] at hsame
  | reduce | accept =>
      cases h' with
      | shift => simp [Action.withoutTarget] at hsame
      | reduce | accept => exact hsame

/-- What is called for in a covered state is called for in the state that covers it. -/
theorem CoversState.exists_calls {A B : LRAutomaton g} {s q : StateId} (h : A.CoversState B s q)
    {t : TerminalId} {action : Action} (hcalls : B.Calls q t action) :
    ∃ action', A.Calls s t action' ∧ action'.withoutTarget = action.withoutTarget := by
  cases hcalls with
  | shift holds expects _ =>
      have hholds := h.holds _ holds
      obtain ⟨next, move⟩ := A.exists_next hholds expects
      exact ⟨.shift next, .shift hholds expects move, rfl⟩
  | reduce looks complete ne => exact ⟨_, .reduce (h.looks _ t looks) complete ne, rfl⟩
  | accept holds complete eq => exact ⟨_, .accept (h.holds _ holds) complete eq, rfl⟩

theorem IsConflictFree.of_covers {A B : LRAutomaton g} (hA : A.IsConflictFree)
    (hcovers : A.Covers B) : B.IsConflictFree := by
  intro q t action action' h h'
  obtain ⟨s, hs⟩ := hcovers q h.exists_holdsAt
  obtain ⟨covering, hcalls, hsame⟩ := hs.exists_calls h
  obtain ⟨covering', hcalls', hsame'⟩ := hs.exists_calls h'
  apply h.eq_of_withoutTarget_eq h'
  rw [← hsame, ← hsame', hA s t covering covering' hcalls hcalls']

/-! ## The canonical automaton is covered -/

/-- Each canonical state has the items of some state of any other automaton of
the grammar, and no lookaheads that this state has not.  By induction along the
transitions that lead to the kernel. -/
theorem exists_state_of_mem_keys (A : LRAutomaton a) (h : g.IsAugmentation a) {kernel : ItemSet}
    (hk : kernel ∈ CanonicalAutomaton.keys a) :
    ∃ s, (∀ item, HoldsAt A.states s item ↔ item ∈ (a.closure (.ofGrammar a) kernel).cores) ∧
      ∀ item t, (a.closure (.ofGrammar a) kernel).Looks item t → A.looks s item t := by
  have hunfold : ∀ {s kernel}, kernel.Fits a → (∀ item t, kernel.Looks item t → A.looks s item t) →
      ∀ item t, (a.closure (.ofGrammar a) kernel).Looks item t → A.looks s item t := by
    intro s kernel hfits hseed item t hlooks
    rw [Grammar.looks_closure_iff h.isClosed hfits] at hlooks
    induction hlooks with
    | seed hlooks => exact hseed _ _ hlooks
    | spawn _ hnext hj hstart ih => exact A.looks_spawn ih hnext hj hstart
  have hreach := (CanonicalAutomaton.mem_keys_iff h).mp hk
  induction hreach with
  | refl =>
      have hfits := CanonicalAutomaton.fits_startKernel h
      refine ⟨0, fun item => ?_, hunfold hfits ?_⟩
      · rw [A.holds_start, Grammar.mem_cores_closure_iff h.isClosed hfits]
        simp only [CanonicalAutomaton.mem_cores_startKernel]
      · intro item t hlooks
        obtain ⟨rfl, rfl⟩ := CanonicalAutomaton.looks_startKernel.mp hlooks
        exact A.looks_start
  | @tail front target hfront hleads ih =>
      obtain ⟨s, hholds, hlooks⟩ := ih ((CanonicalAutomaton.mem_keys_iff h).mpr hfront)
      have hfits := CanonicalAutomaton.fits_of_mem_keys h hk
      obtain ⟨symbol, hsymbol⟩ := CanonicalAutomaton.leads_iff.mp hleads
      obtain ⟨⟨item, hitem, hnext⟩, rfl⟩ := Grammar.mem_transitions_iff.mp hsymbol
      obtain ⟨next, move⟩ := A.exists_next ((hholds item).mpr hitem) hnext
      refine ⟨next, fun j => ?_, hunfold hfits ?_⟩
      · have hmoved : (fun i => i ∈ (a.goto (a.closure (.ofGrammar a) front) symbol).cores) =
            MovedOver a A.states s symbol := by
          funext i
          simp [Grammar.mem_cores_goto_iff, MovedOver, hholds]
        rw [A.holds_next move, Grammar.mem_cores_closure_iff h.isClosed hfits, hmoved]
      · intro j t hj
        obtain ⟨i, hi, hexpects, rfl⟩ := Grammar.looks_goto_iff.mp hj
        exact A.looks_next (hlooks i t hi) hexpects move

/-- Every automaton of the grammar covers the canonical one. -/
theorem covers_canonical (A : LRAutomaton a) (h : g.IsAugmentation a) :
    A.Covers (CanonicalAutomaton.toLRAutomaton h) := by
  rintro k ⟨item, hitem⟩
  obtain ⟨kernel, hkernel, -⟩ := CanonicalAutomaton.holdsAt_iff.mp hitem
  obtain ⟨s, hholds, hlooks⟩ := A.exists_state_of_mem_keys h (List.mem_of_getElem? hkernel)
  refine ⟨s, ?_, ?_⟩
  · intro j hj
    obtain ⟨kernel', hkernel', hmem⟩ := CanonicalAutomaton.holdsAt_iff.mp hj
    obtain rfl := Option.some.inj (hkernel.symm.trans hkernel')
    exact (hholds j).mpr hmem
  · rintro j t ⟨kernel', hkernel', hj⟩
    obtain rfl := Option.some.inj (hkernel.symm.trans hkernel')
    exact hlooks j t hj

/-- The LR(0) automaton covers the merged one: whatever canonical state of a class
a lookahead comes from, it follows the head of the rule. -/
theorem covers_merged (h : g.IsAugmentation a) :
    (ItemAutomaton.toLRAutomaton h).Covers (CanonicalAutomaton.toMergedLRAutomaton h) := by
  have hcanonical := (ItemAutomaton.toLRAutomaton h).covers_canonical h
  have hrepresented : ∀ {q k item}, a.canonicalAutomaton.Represents q k →
      HoldsAt a.canonicalAutomaton.mergeCores q item →
      ∃ s, (ItemAutomaton.toLRAutomaton h).CoversState (CanonicalAutomaton.toLRAutomaton h) s k :=
    fun hk hitem => hcanonical _ ⟨_, hk.holdsAt_iff.mp hitem⟩
  rintro q ⟨item, hitem⟩
  change HoldsAt a.canonicalAutomaton.mergeCores q item at hitem
  obtain ⟨k, hk⟩ := CanonicalAutomaton.exists_represents hitem.lt
  obtain ⟨s, hs⟩ := hrepresented hk hitem
  have hholds : ∀ j, HoldsAt a.canonicalAutomaton.mergeCores q j → HoldsAt a.lr0States s j :=
    fun j hj => hs.holds j (hk.holdsAt_iff.mp hj)
  refine ⟨s, hholds, ?_⟩
  rintro j t ⟨k', hk', hlooks⟩
  have hj : HoldsAt a.canonicalAutomaton.mergeCores q j :=
    hk'.holdsAt_iff.mpr ((CanonicalAutomaton.toLRAutomaton h).holds_of_looks hlooks)
  obtain ⟨s', hs'⟩ := hrepresented hk' hitem
  obtain ⟨-, hfollows⟩ := hs'.looks j t hlooks
  exact ⟨hholds j hj, hfollows⟩

end LRAutomaton

/-! ## The hierarchy -/

/-- For every grammar that is read from text: if its SLR(1) table is deterministic,
so is its LALR(1) table, and if that one is, so is its LR(1) table. -/
theorem Grammar.exists_determinism_hierarchy {text : String} (hg : Grammar.ofText text = .ok g) :
    ∃ slr lalr lr, g.parseTable? .slr1 = some slr ∧ g.parseTable? .lalr1 = some lalr ∧
      g.parseTable? .lr1 = some lr ∧
      (slr.isDeterministic = true → lalr.isDeterministic = true) ∧
      (lalr.isDeterministic = true → lr.isDeterministic = true) := by
  obtain ⟨a, haccept, h⟩ := (isPlain_of_ofText hg).exists_isAugmentation
  refine ⟨_, _, _, parseTable?_eq haccept .slr1, parseTable?_eq haccept .lalr1,
    parseTable?_eq haccept .lr1, ?_, ?_⟩
  · intro hdet
    have hfree := (ItemAutomaton.drives_slr1 h).isConflictFree hdet
    exact (hfree.of_covers (LRAutomaton.covers_merged h)).isDeterministic
      (CanonicalAutomaton.drives_lalr1 h)
  · intro hdet
    have hfree := (CanonicalAutomaton.drives_lalr1 h).isConflictFree hdet
    exact (hfree.of_covers (LRAutomaton.covers_canonical _ h)).isDeterministic
      (CanonicalAutomaton.drives_lr1 h)

/-- The LALR(1) table of this grammar is deterministic, so its LR(1) table is, but
its SLR(1) table is not. -/
theorem Grammar.exists_determinism_hierarchy_assignment :
    ∃ g slr lalr lr, Grammar.ofText "S -> L = R | R\nL -> * R | i\nR -> L\n" = .ok g ∧
      g.parseTable? .slr1 = some slr ∧ g.parseTable? .lalr1 = some lalr ∧
      g.parseTable? .lr1 = some lr ∧ slr.isDeterministic = false ∧
      lalr.isDeterministic = true ∧ lr.isDeterministic = true := by
  have hcomputed : (Grammar.ofText "S -> L = R | R\nL -> * R | i\nR -> L\n").toOption.map
      (fun g => ((g.parseTable? .slr1).map ParseTable.isDeterministic,
        (g.parseTable? .lalr1).map ParseTable.isDeterministic)) =
      some (some false, some true) := by decide +kernel
  obtain ⟨g, hg, hcomputed⟩ := Grammar.exists_of_ofText hcomputed
  obtain ⟨hslr, hlalr⟩ := Prod.mk.inj hcomputed
  obtain ⟨slr, lalr, lr, hs, hla, hl, -, hcanonical⟩ := Grammar.exists_determinism_hierarchy hg
  rw [hs, Option.map_some, Option.some.injEq] at hslr
  rw [hla, Option.map_some, Option.some.injEq] at hlalr
  exact ⟨g, slr, lalr, lr, hg, hs, hla, hl, hslr, hlalr, hcanonical hlalr⟩

end GrammarAnalysis

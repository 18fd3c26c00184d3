import GrammarAnalysis.Proofs.ShiftReduce.Canonical

/-!
# The merged automaton is an automaton of item sets

A class represents the canonical states with the same items.  Where one of them
moves over a symbol, all of them do, and the states they move to have the same
items again, so that the class of the target does not depend on the state.  The
lookaheads of a class are those of all the states it represents.
-/

namespace GrammarAnalysis

namespace CanonicalAutomaton

/-! ## Merging the states of one class -/

section

variable {representatives : List StateId}

theorem get?_foldl_insert {entries : List (Symbol × StateId)} {m : OrderedMap Symbol StateId}
    {s : Symbol} {q : StateId}
    (h : (entries.foldl (fun m entry => m.insert entry.1 ((representatives[entry.2]?).getD 0))
      m).get? s = some q) :
    m.get? s = some q ∨ ∃ target, (s, target) ∈ entries ∧
      q = (representatives[target]?).getD 0 := by
  induction entries generalizing m with
  | nil => exact Or.inl h
  | cons entry rest ih =>
      rw [List.foldl_cons] at h
      rcases ih h with h | ⟨target, hmem, hq⟩
      · rw [OrderedMap.get?_insert] at h
        split at h
        · next hs =>
          refine Or.inr ⟨entry.2, ?_, (Option.some.inj h).symm⟩
          rw [hs]
          exact List.mem_cons_self
        · exact Or.inl h
      · exact Or.inr ⟨target, List.mem_cons_of_mem _ hmem, hq⟩

theorem exists_get?_foldl_insert {entries : List (Symbol × StateId)}
    {m : OrderedMap Symbol StateId} {s : Symbol}
    (h : (∃ q, m.get? s = some q) ∨ ∃ target, (s, target) ∈ entries) :
    ∃ q, (entries.foldl (fun m entry => m.insert entry.1 ((representatives[entry.2]?).getD 0))
      m).get? s = some q := by
  induction entries generalizing m with
  | nil => simpa using h
  | cons entry rest ih =>
      rw [List.foldl_cons]
      refine ih ?_
      by_cases hs : s = entry.1
      · refine Or.inl ⟨(representatives[entry.2]?).getD 0, ?_⟩
        rw [OrderedMap.get?_insert, if_pos hs]
      · rcases h with ⟨q, hq⟩ | ⟨target, htarget⟩
        · refine Or.inl ⟨q, ?_⟩
          rw [OrderedMap.get?_insert, if_neg hs]
          exact hq
        · rcases List.mem_cons.mp htarget with heq | hmem
          · exact absurd (congrArg Prod.fst heq) hs
          · exact Or.inr ⟨target, hmem⟩

variable {states : List CanonicalState} {merged : ParserState}

theorem mem_cores_foldl_mergeInto {item : Item} :
    item ∈ (states.foldl (mergeInto representatives) merged).items.cores ↔
      item ∈ merged.items.cores ∨ ∃ state ∈ states, item ∈ state.items.cores := by
  induction states generalizing merged with
  | nil => simp
  | cons state rest ih =>
      rw [List.foldl_cons, ih, mergeInto, ItemSet.mem_cores_union]
      simp [or_assoc]

theorem looks_foldl_mergeInto {item : Item} {t : TerminalId} :
    (states.foldl (mergeInto representatives) merged).items.Looks item t ↔
      merged.items.Looks item t ∨ ∃ state ∈ states, state.items.Looks item t := by
  induction states generalizing merged with
  | nil => simp
  | cons state rest ih =>
      rw [List.foldl_cons, ih, mergeInto, ItemSet.looks_union]
      simp [or_assoc]

theorem get?_foldl_mergeInto {s : Symbol} {q : StateId}
    (h : (states.foldl (mergeInto representatives) merged).transitions.get? s = some q) :
    merged.transitions.get? s = some q ∨ ∃ state ∈ states, ∃ target,
      state.transitions.get? s = some target ∧ q = (representatives[target]?).getD 0 := by
  induction states generalizing merged with
  | nil => exact Or.inl h
  | cons state rest ih =>
      rw [List.foldl_cons] at h
      rcases ih h with h | ⟨st, hst, target, htarget, hq⟩
      · rcases get?_foldl_insert h with h | ⟨target, htarget, hq⟩
        · exact Or.inl h
        · exact Or.inr ⟨state, by simp, target, OrderedMap.get?_eq_some_iff.mpr htarget, hq⟩
      · exact Or.inr ⟨st, List.mem_cons_of_mem _ hst, target, htarget, hq⟩

theorem exists_get?_foldl_mergeInto {s : Symbol}
    (h : (∃ q, merged.transitions.get? s = some q) ∨
      ∃ state ∈ states, ∃ target, state.transitions.get? s = some target) :
    ∃ q, (states.foldl (mergeInto representatives) merged).transitions.get? s = some q := by
  induction states generalizing merged with
  | nil => simpa using h
  | cons state rest ih =>
      rw [List.foldl_cons]
      refine ih ?_
      rcases h with h | ⟨st, hst, target, htarget⟩
      · exact Or.inl (exists_get?_foldl_insert (Or.inl h))
      · rcases List.mem_cons.mp hst with rfl | hst
        · have hmem := OrderedMap.get?_eq_some_iff.mp htarget
          exact Or.inl (exists_get?_foldl_insert (Or.inr ⟨target, hmem⟩))
        · exact Or.inr ⟨st, hst, target, htarget⟩

end

/-! ## Classes -/

/-- Whether the class consists of the canonical states with the items of state `k`. -/
def Represents (automaton : CanonicalAutomaton) (q k : StateId) : Prop :=
  ∃ state, automaton.states[k]? = some state ∧
    automaton.classes[q]? = some state.items.cores

variable {automaton : CanonicalAutomaton}

/-- The states of a class, merged. -/
def mergedState (automaton : CanonicalAutomaton) (cores : List Item) : ParserState :=
  (automaton.states.filter fun state => state.items.cores = cores).foldl
    (mergeInto (automaton.states.map fun state => automaton.classes.idxOf state.items.cores))
    ⟨∅, ∅⟩

theorem getElem?_mergeCores {q : StateId} :
    automaton.mergeCores[q]? = automaton.classes[q]?.map (mergedState automaton) := by
  rw [mergeCores, List.getElem?_map]
  rfl

/-- Every merged state represents some canonical state. -/
theorem exists_represents {q : StateId} (hq : q < automaton.mergeCores.length) :
    ∃ k, automaton.Represents q k := by
  rw [mergeCores, List.length_map] at hq
  obtain ⟨cores, hclass⟩ : ∃ cores, automaton.classes[q]? = some cores :=
    ⟨_, List.getElem?_eq_getElem hq⟩
  have hmem := List.mem_of_getElem? hclass
  rw [classes, mem_distinct] at hmem
  obtain ⟨state, hstate, rfl⟩ := List.mem_map.mp hmem
  obtain ⟨k, hk⟩ := List.mem_iff_getElem?.mp hstate
  exact ⟨k, state, hk, hclass⟩

theorem classes_idxOf {k : StateId} {state : CanonicalState}
    (h : automaton.states[k]? = some state) :
    automaton.classes[automaton.classes.idxOf state.items.cores]? = some state.items.cores := by
  refine List.getElem?_idxOf ?_
  rw [classes, mem_distinct]
  exact List.mem_map_of_mem (List.mem_of_getElem? h)

theorem holdsAt_parserStates {k : StateId} {state : CanonicalState}
    (h : automaton.states[k]? = some state) {item : Item} :
    HoldsAt automaton.parserStates k item ↔ item ∈ state.items.cores := by
  simp [HoldsAt, parserStates, h]

theorem movesTo_parserStates {k next : StateId} {state : CanonicalState} {s : Symbol}
    (h : automaton.states[k]? = some state) :
    MovesTo automaton.parserStates k s next ↔ state.transitions.get? s = some next := by
  simp [MovesTo, parserStates, h]

namespace Represents

variable {q k : StateId}

/-- A class has the items of the states it represents. -/
theorem holdsAt_iff (h : automaton.Represents q k) {item : Item} :
    HoldsAt automaton.mergeCores q item ↔ HoldsAt automaton.parserStates k item := by
  obtain ⟨state, hstate, hclass⟩ := h
  rw [holdsAt_parserStates hstate, HoldsAt, getElem?_mergeCores, hclass]
  simp only [Option.map_some, Option.some.injEq, exists_eq_left', mergedState,
    mem_cores_foldl_mergeInto, List.mem_filter, decide_eq_true_eq]
  constructor
  · rintro (hnone | ⟨other, ⟨-, hcores⟩, hitem⟩)
    · simp at hnone
    · rw [← hcores]
      exact hitem
  · intro hitem
    exact Or.inr ⟨state, ⟨List.mem_of_getElem? hstate, rfl⟩, hitem⟩

theorem holdsAt_congr {k' : StateId} (h : automaton.Represents q k)
    (h' : automaton.Represents q k') (item : Item) :
    HoldsAt automaton.parserStates k item ↔ HoldsAt automaton.parserStates k' item := by
  rw [← h.holdsAt_iff, ← h'.holdsAt_iff]

/-- A state with the items of a represented state is represented as well. -/
theorem of_holdsAt {k' : StateId} {state : CanonicalState} (h : automaton.Represents q k)
    (hstate : automaton.states[k']? = some state)
    (hsame : ∀ item, HoldsAt automaton.parserStates k item ↔
      HoldsAt automaton.parserStates k' item) : automaton.Represents q k' := by
  obtain ⟨known, hknown, hclass⟩ := h
  refine ⟨state, hstate, ?_⟩
  rw [hclass, Option.some.injEq]
  refine ItemSet.cores_eq_of_mem_iff fun item => ?_
  rw [← holdsAt_parserStates hknown, ← holdsAt_parserStates hstate]
  exact hsame item

end Represents

variable {g a : Grammar}

theorem exists_state_of_movesTo (h : g.IsAugmentation a) {k next : StateId} {symbol : Symbol}
    (move : MovesTo a.canonicalAutomaton.parserStates k symbol next) :
    ∃ state, a.canonicalAutomaton.states[next]? = some state := by
  obtain ⟨kernel, -, hkey⟩ := keys_of_movesTo h move
  exact ⟨_, by rw [getElem?_states, hkey, Option.map_some]⟩

/-- Where a class moves, every state it represents moves to a state that the
target represents. -/
theorem Represents.exists_next (h : g.IsAugmentation a) {q q' k : StateId} {symbol : Symbol}
    (hk : a.canonicalAutomaton.Represents q k)
    (move : MovesTo a.canonicalAutomaton.mergeCores q symbol q') :
    ∃ k', MovesTo a.canonicalAutomaton.parserStates k symbol k' ∧
      a.canonicalAutomaton.Represents q' k' := by
  let C := toLRAutomaton h
  obtain ⟨state, hstate, hclass⟩ := hk
  obtain ⟨merged, hmerged, hget⟩ := move
  rw [getElem?_mergeCores, hclass, Option.map_some, Option.some.injEq] at hmerged
  rw [← hmerged, mergedState] at hget
  rcases get?_foldl_mergeInto hget with hnone | ⟨state₀, hstate₀, target, htarget, hq'⟩
  · simp at hnone
  · obtain ⟨hmem₀, hcores₀⟩ := List.mem_filter.mp hstate₀
    obtain ⟨k₀, hk₀⟩ := List.mem_iff_getElem?.mp hmem₀
    have hrep₀ : a.canonicalAutomaton.Represents q k₀ := by
      refine ⟨state₀, hk₀, ?_⟩
      rw [hclass, of_decide_eq_true hcores₀]
    have move₀ := (movesTo_parserStates hk₀).mpr htarget
    obtain ⟨state', htarget'⟩ := exists_state_of_movesTo h move₀
    have hrep' : a.canonicalAutomaton.Represents q' target := by
      refine ⟨state', htarget', ?_⟩
      rw [hq', List.getElem?_map, htarget', Option.map_some, Option.getD_some]
      exact classes_idxOf htarget'
    -- `k` is in the class of `k₀`, so it moves the same items
    have hsame : C.SameItems C k₀ k := hrep₀.holdsAt_congr ⟨state, hstate, hclass⟩
    obtain ⟨item, hitem, hnext⟩ : ∃ item, HoldsAt C.states k₀ item ∧
        a.next? item = some symbol := by
      obtain ⟨kernel, hkernel, ⟨item, hitem, hnext⟩, -⟩ := movesTo_iff.mp move₀
      exact ⟨item, CanonicalAutomaton.holdsAt_iff.mpr ⟨kernel, hkernel, hitem⟩, hnext⟩
    obtain ⟨k', move'⟩ := C.exists_next ((hsame item).mp hitem) hnext
    obtain ⟨state'', hstate'⟩ := exists_state_of_movesTo h move'
    exact ⟨k', move', hrep'.of_holdsAt hstate' (hsame.next move₀ move')⟩

/-- Where a represented state moves, its class moves. -/
theorem Represents.exists_move {q k next : StateId} {symbol : Symbol}
    (h : automaton.Represents q k) (move : MovesTo automaton.parserStates k symbol next) :
    ∃ q', MovesTo automaton.mergeCores q symbol q' := by
  obtain ⟨state, hstate, hclass⟩ := h
  have hmem : state ∈ automaton.states.filter fun other =>
      other.items.cores = state.items.cores :=
    List.mem_filter.mpr ⟨List.mem_of_getElem? hstate, by simp⟩
  have hget : ∃ q', (mergedState automaton state.items.cores).transitions.get? symbol =
      some q' :=
    exists_get?_foldl_mergeInto
      (Or.inr ⟨state, hmem, next, (movesTo_parserStates hstate).mp move⟩)
  obtain ⟨q', hq'⟩ := hget
  refine ⟨q', mergedState automaton state.items.cores, ?_, hq'⟩
  rw [getElem?_mergeCores, hclass, Option.map_some]

theorem represents_zero (g : Grammar) : g.canonicalAutomaton.Represents 0 0 := by
  have hstate : g.canonicalAutomaton.states[0]? = some (stateOf g startKernel) := by
    rw [getElem?_states, keys_zero, Option.map_some]
  refine ⟨_, hstate, ?_⟩
  obtain ⟨rest, hrest⟩ : ∃ rest, g.canonicalAutomaton.states =
      stateOf g startKernel :: rest := by
    cases hstates : g.canonicalAutomaton.states with
    | nil => simp [hstates] at hstate
    | cons first rest =>
        rw [hstates] at hstate
        exact ⟨rest, by rw [List.getElem?_cons_zero, Option.some.injEq] at hstate; rw [hstate]⟩
  rw [classes, hrest, List.map_cons]
  simp [distinct, unseen]

/-- The merged automaton of an augmented grammar. -/
def toMergedLRAutomaton (h : g.IsAugmentation a) : LRAutomaton a where
  states := a.canonicalAutomaton.mergeCores
  looks := fun q item t => ∃ k, a.canonicalAutomaton.Represents q k ∧ LooksAt a k item t
  holds_start := by
    intro item
    rw [(represents_zero a).holdsAt_iff]
    exact (toLRAutomaton h).holds_start item
  holds_next := by
    intro q symbol q' move item
    obtain ⟨k, hk⟩ := exists_represents move.lt
    obtain ⟨k', move', hk'⟩ := hk.exists_next h move
    have hmoved : MovedOver a a.canonicalAutomaton.mergeCores q symbol =
        MovedOver a a.canonicalAutomaton.parserStates k symbol := by
      funext i
      simp only [MovedOver, hk.holdsAt_iff]
    rw [hk'.holdsAt_iff, hmoved]
    exact (toLRAutomaton h).holds_next move' item
  exists_next := by
    intro q item symbol hitem hnext
    obtain ⟨k, hk⟩ := exists_represents hitem.lt
    obtain ⟨k', move⟩ := (toLRAutomaton h).exists_next (hk.holdsAt_iff.mp hitem) hnext
    exact hk.exists_move move
  holds_of_looks := by
    rintro q item t ⟨k, hk, hlooks⟩
    exact hk.holdsAt_iff.mpr ((toLRAutomaton h).holds_of_looks hlooks)
  looks_start := ⟨0, represents_zero a, (toLRAutomaton h).looks_start⟩
  looks_next := by
    rintro q item symbol q' t ⟨k, hk, hlooks⟩ hnext move
    obtain ⟨k', move', hk'⟩ := hk.exists_next h move
    exact ⟨k', hk', (toLRAutomaton h).looks_next hlooks hnext move'⟩
  looks_spawn := by
    rintro q item j n l t ⟨k, hk, hlooks⟩ hnext hj hstart
    exact ⟨k, hk, (toLRAutomaton h).looks_spawn hlooks hnext hj hstart⟩

/-- A class reduces its items on the lookaheads of the states it represents. -/
theorem reducesOn_mergeCores {q : StateId} {item : Item} {t : TerminalId} :
    (∃ k, g.canonicalAutomaton.Represents q k ∧ LooksAt g k item t) ↔
      ReducesOn g none g.canonicalAutomaton.mergeCores q item t := by
  have hmerged : ReducesOn g none g.canonicalAutomaton.mergeCores q item t ↔
      ∃ cores, g.canonicalAutomaton.classes[q]? = some cores ∧
        (mergedState g.canonicalAutomaton cores).items.Looks item t := by
    simp [ReducesOn, getElem?_mergeCores, ParseTable.reduceLookaheads, ItemSet.Looks]
  rw [hmerged]
  constructor
  · rintro ⟨k, ⟨state, hstate, hclass⟩, kernel, hkernel, hlooks⟩
    rw [getElem?_states, hkernel, Option.map_some, Option.some.injEq] at hstate
    refine ⟨_, hclass, looks_foldl_mergeInto.mpr (Or.inr ⟨state, ?_, ?_⟩)⟩
    · refine List.mem_filter.mpr ⟨?_, by simp⟩
      rw [states_eq, ← hstate]
      exact List.mem_map_of_mem (List.mem_of_getElem? hkernel)
    · rw [← hstate]
      exact hlooks
  · rintro ⟨cores, hclass, hlooks⟩
    rcases looks_foldl_mergeInto.mp hlooks with hnone | ⟨state, hstate, hlooks⟩
    · simp at hnone
    · obtain ⟨hmem, hcores⟩ := List.mem_filter.mp hstate
      obtain ⟨k, hk⟩ := List.mem_iff_getElem?.mp hmem
      refine ⟨k, ⟨state, hk, by rw [hclass, of_decide_eq_true hcores]⟩, ?_⟩
      rw [getElem?_states, Option.map_eq_some_iff] at hk
      obtain ⟨kernel, hkernel, rfl⟩ := hk
      exact ⟨kernel, hkernel, hlooks⟩

/-- The merged table follows the items of the merged automaton. -/
theorem drives_lalr1 (h : g.IsAugmentation a) :
    (toMergedLRAutomaton h).Drives (ParseTable.lalr1 a a.canonicalAutomaton) :=
  ParseTable.drives_ofStates (toMergedLRAutomaton h) .lalr1 fun _ _ _ => reducesOn_mergeCores

end CanonicalAutomaton

end GrammarAnalysis

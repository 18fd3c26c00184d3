import Mathlib.Data.Set.Function
import GrammarAnalysis.Proofs.ShiftReduce.ItemAutomaton
import GrammarAnalysis.Proofs.ShiftReduce.Merged
import GrammarAnalysis.Proofs.ShiftReduce.ValidItems

/-!
# The merged states are the LR(0) states

Two automata of item sets of one grammar start with the same items, and where
their states have the same items they move to states with the same items.  If
all states of both are reachable and told apart by their items, then they are
the same automaton up to the numbers of the states
(`LRAutomaton.IsTrim.exists_isRenumbering`).

The LR(0) states are told apart by their items since they are sets of items, and
the merged states since they are the classes of canonical states with the same
items.
-/

namespace GrammarAnalysis

variable {g a : Grammar}

/-- Whether `f` renumbers the states of the one list as those of the other one.  The
first state stays the first one, and each state keeps its items, apart from their
lookaheads, and its transitions. -/
structure IsRenumbering (states others : List ParserState) (f : StateId → StateId) : Prop where
  bijOn : Set.BijOn f {s | s < states.length} {s | s < others.length}
  nonempty : 0 < states.length
  first : f 0 = 0
  closed : ∀ (s : StateId) (state : ParserState), states[s]? = some state →
    ∀ symbol next, state.transitions.get? symbol = some next → next < states.length
  exists_other : ∀ (s : StateId) (state : ParserState), states[s]? = some state →
    ∃ other, others[f s]? = some other ∧ other.items.cores = state.items.cores ∧
      ∀ symbol, other.transitions.get? symbol = (state.transitions.get? symbol).map f

namespace LRAutomaton

/-- Whether the states of the automaton are reached, move over expected symbols only,
and are told apart by their items. -/
structure IsTrim (A : LRAutomaton g) : Prop where
  reached : ∀ s < A.states.length, ∃ symbols below, Climbs A.states [0] symbols (s :: below)
  expected : ∀ {s symbol next}, MovesTo A.states s symbol next →
    ∃ item, HoldsAt A.states s item ∧ g.next? item = some symbol
  eq_of_sameItems : ∀ s < A.states.length, ∀ s' < A.states.length, A.SameItems A s s' → s = s'

/-- Where a state moves over an expected symbol, a state with the same items moves, too. -/
theorem SameItems.exists_move {A B : LRAutomaton g} {s q : StateId} (h : A.SameItems B s q)
    (hA : A.IsTrim) {next : StateId} {symbol : Symbol}
    (move : MovesTo A.states s symbol next) :
    ∃ next', MovesTo B.states q symbol next' ∧ A.SameItems B next next' := by
  obtain ⟨item, hitem, hnext⟩ := hA.expected move
  obtain ⟨next', move'⟩ := B.exists_next ((h item).mp hitem) hnext
  exact ⟨next', move', h.next move move'⟩

namespace IsTrim

variable {A B : LRAutomaton g} {s : StateId}

/-- A state that is moved to has an item. -/
theorem lt_of_movesTo (hA : A.IsTrim) {next : StateId} {symbol : Symbol}
    (move : MovesTo A.states s symbol next) : next < A.states.length := by
  obtain ⟨item, hitem, hnext⟩ := hA.expected move
  exact (A.holds_advance hitem hnext move).lt

theorem zero_lt (A : LRAutomaton g) : 0 < A.states.length :=
  ((A.holds_start (Item.initial acceptRule)).mpr (.seed rfl)).lt

/-- Each state of a trim automaton is found in every other automaton of the grammar, at
the end of the same path. -/
theorem exists_sameItems (hA : A.IsTrim) (B : LRAutomaton g) (hs : s < A.states.length) :
    ∃ q < B.states.length, A.SameItems B s q := by
  have hpath : ∀ {symbols top}, Climbs A.states [0] symbols top →
      ∀ s below, top = s :: below → ∃ q < B.states.length, A.SameItems B s q := by
    intro symbols top path
    induction path with
    | refl =>
        intro s below htop
        obtain ⟨rfl, -⟩ := List.cons.inj htop
        exact ⟨0, zero_lt B, .zero A B⟩
    | @step below symbols s next symbol _ move ih =>
        intro s' below' htop
        obtain ⟨rfl, -⟩ := List.cons.inj htop
        obtain ⟨q, -, hsame⟩ := ih s below rfl
        obtain ⟨item, hitem, hnext⟩ := hA.expected move
        obtain ⟨q', move'⟩ := B.exists_next ((hsame item).mp hitem) hnext
        have hsame' := hsame.next move move'
        exact ⟨q', ((hsame' _).mp (A.holds_advance hitem hnext move)).lt, hsame'⟩
  obtain ⟨symbols, below, path⟩ := hA.reached s hs
  exact hpath path s below rfl

/-- Trim automata of one grammar differ in the numbers of their states only. -/
theorem exists_isRenumbering (hA : A.IsTrim) (hB : B.IsTrim) :
    ∃ f, IsRenumbering A.states B.states f := by
  choose! f hlt hsame using fun s hs => hA.exists_sameItems (s := s) B hs
  have hfollows : ∀ s < A.states.length, ∀ q < B.states.length, A.SameItems B s q → f s = q :=
    fun s hs q hq h => hB.eq_of_sameItems _ (hlt s hs) q hq ((hsame s hs).symm.trans h)
  refine ⟨f, ⟨hlt, ?_, ?_⟩, zero_lt A, ?_, ?_, ?_⟩
  · intro s hs s' hs' heq
    have h' := hsame s' hs'
    rw [← heq] at h'
    exact hA.eq_of_sameItems s hs s' hs' ((hsame s hs).trans h'.symm)
  · intro q hq
    obtain ⟨s, hs, h⟩ := hB.exists_sameItems A hq
    exact ⟨s, hs, hfollows s hs q hq h.symm⟩
  · exact hfollows 0 (zero_lt A) 0 (zero_lt B) (.zero A B)
  · intro s state hstate symbol next hget
    exact hA.lt_of_movesTo ⟨state, hstate, hget⟩
  · intro s state hstate
    have hs := (List.getElem?_eq_some_iff.mp hstate).1
    have hother := List.getElem?_eq_getElem (hlt s hs)
    refine ⟨_, hother, ?_, ?_⟩
    · refine ItemSet.cores_eq_of_mem_iff fun item => ?_
      have h := hsame s hs item
      rw [HoldsAt, HoldsAt, hstate, hother] at h
      simpa using h.symm
    · intro symbol
      cases hget : state.transitions.get? symbol with
      | some next =>
          have move : MovesTo A.states s symbol next := ⟨state, hstate, hget⟩
          obtain ⟨next', move', h⟩ := (hsame s hs).exists_move hA move
          have hf := hfollows next (hA.lt_of_movesTo move) next' (hB.lt_of_movesTo move') h
          obtain ⟨other, hother', hget'⟩ := move'
          obtain rfl := Option.some.inj (hother.symm.trans hother')
          rw [hget', Option.map_some, hf]
      | none =>
          rw [Option.map_none, Option.eq_none_iff_forall_ne_some]
          intro next' hget'
          obtain ⟨next, ⟨state', hstate', hnext⟩, -⟩ :=
            (hsame s hs).symm.exists_move hB ⟨_, hother, hget'⟩
          obtain rfl := Option.some.inj (hstate.symm.trans hstate')
          rw [hget] at hnext
          contradiction

end IsTrim

end LRAutomaton

/-! ## The merged states -/

namespace CanonicalAutomaton

theorem Represents.eq {automaton : CanonicalAutomaton} {q q' k : StateId}
    (h : automaton.Represents q k) (h' : automaton.Represents q' k) : q = q' := by
  obtain ⟨state, hstate, hclass⟩ := h
  obtain ⟨state', hstate', hclass'⟩ := h'
  obtain rfl := Option.some.inj (hstate.symm.trans hstate')
  have hlt := (List.getElem?_eq_some_iff.mp hclass).1
  exact (List.getElem?_inj hlt (nodup_distinct _)).mp (hclass.trans hclass'.symm)

/-- A path of canonical states is a path of their classes. -/
theorem exists_path_of_climbs (h : g.IsAugmentation a) {symbols : List Symbol}
    {top : List StateId} (path : Climbs a.canonicalAutomaton.parserStates [0] symbols top)
    {k : StateId} {below : List StateId} (htop : top = k :: below) :
    ∃ q below', Climbs a.canonicalAutomaton.mergeCores [0] symbols (q :: below') ∧
      a.canonicalAutomaton.Represents q k := by
  induction path generalizing k below with
  | refl =>
      obtain ⟨rfl, -⟩ := List.cons.inj htop
      exact ⟨0, [], .refl _, represents_zero a⟩
  | step _ move ih =>
      obtain ⟨rfl, -⟩ := List.cons.inj htop
      obtain ⟨q, below', path', hq⟩ := ih rfl
      obtain ⟨q', move'⟩ := hq.exists_move move
      obtain ⟨k', moved, hq'⟩ := hq.exists_next h move'
      rw [moved.eq move] at hq'
      exact ⟨q', q :: below', path'.step move', hq'⟩

theorem isTrim_merged (h : g.IsAugmentation a) : (toMergedLRAutomaton h).IsTrim where
  reached := by
    intro q hq
    obtain ⟨k, hk⟩ := exists_represents hq
    obtain ⟨state, hstate, -⟩ := id hk
    rw [getElem?_states, Option.map_eq_some_iff] at hstate
    obtain ⟨kernel, hkernel, -⟩ := hstate
    obtain ⟨symbols, below, path⟩ := exists_path_of_getElem? h hkernel
    obtain ⟨q', below', path', hq'⟩ := exists_path_of_climbs h path rfl
    rw [hq'.eq hk] at path'
    exact ⟨symbols, below', path'⟩
  expected := by
    intro q symbol next move
    obtain ⟨k, hk⟩ := exists_represents move.lt
    obtain ⟨k', move', -⟩ := hk.exists_next h move
    obtain ⟨kernel, hkernel, ⟨item, hitem, hnext⟩, -⟩ := movesTo_iff.mp move'
    exact ⟨item, hk.holdsAt_iff.mpr (holdsAt_iff.mpr ⟨kernel, hkernel, hitem⟩), hnext⟩
  eq_of_sameItems := by
    intro q hq q' hq' hsame
    obtain ⟨k, hk⟩ := exists_represents hq
    obtain ⟨k', hk'⟩ := exists_represents hq'
    obtain ⟨state', hstate', -⟩ := id hk'
    have hholds : ∀ item, HoldsAt a.canonicalAutomaton.parserStates k item ↔
        HoldsAt a.canonicalAutomaton.parserStates k' item := fun item => by
      rw [← hk.holdsAt_iff, ← hk'.holdsAt_iff]
      exact hsame item
    exact (hk.of_holdsAt hstate' hholds).eq hk'

end CanonicalAutomaton

/-! ## The LR(0) states -/

namespace ItemAutomaton

/-- Every subset is found at the end of a path. -/
theorem exists_path_of_mem_subsetKeys (h : g.IsAugmentation a) {states : NatSet}
    (hstates : states ∈ a.itemAutomaton.subsetKeys) :
    ∃ symbols s below, a.itemAutomaton.subsetKeys[s]? = some states ∧
      Climbs a.lr0States [0] symbols (s :: below) := by
  have hreach := (StateGraph.mem_subsetKeys_iff (isBounded h)).mp hstates
  induction hreach with
  | refl => exact ⟨[], 0, [], StateGraph.subsetKeys_zero _, .refl _⟩
  | @tail front target hfront hleads ih =>
      obtain ⟨symbols, s, below, hs, path⟩ :=
        ih ((StateGraph.mem_subsetKeys_iff (isBounded h)).mpr hfront)
      obtain ⟨⟨symbol, next⟩, hentry, rfl⟩ := List.mem_map.mp hleads
      obtain ⟨hexpected, rfl⟩ := (mem_expandSubset_iff h).mp hentry
      refine ⟨symbols ++ [symbol], _, s :: below, List.getElem?_idxOf hstates, path.step ?_⟩
      exact (movesTo_iff h).mpr ⟨front, hs, hexpected, rfl⟩

theorem has_of_mem_subsetKeys (h : g.IsAugmentation a) {states : NatSet}
    (hstates : states ∈ a.itemAutomaton.subsetKeys) : a.itemAutomaton.Has states := by
  rcases ((StateGraph.mem_subsetKeys_iff (isBounded h)).mp hstates).cases_tail with
    rfl | ⟨front, -, hleads⟩
  · exact StateGraph.has_startStates (isBounded h)
  · exact StateGraph.has_of_leads (isBounded h) hleads

/-- A subset is determined by the items that are numbered in it. -/
theorem mem_of_inSubset_imp {states others : NatSet} (hhas : a.itemAutomaton.Has states)
    (himp : ∀ item, InSubset a states item → InSubset a others item) {n : NodeId}
    (hn : n ∈ states) : n ∈ others := by
  have hsize : n < (keys a).length := by
    have hlt := hhas n hn
    rw [StateGraph.size] at hlt
    have hnode := Array.getElem?_eq_getElem hlt
    rw [getElem?_nodes, Option.map_eq_some_iff] at hnode
    obtain ⟨item, hitem, -⟩ := hnode
    exact (List.getElem?_eq_some_iff.mp hitem).1
  have hkey := List.getElem?_eq_getElem hsize
  obtain ⟨m, hm, hkey'⟩ := himp _ ⟨n, hn, hkey⟩
  rwa [(List.getElem?_inj hsize (nodup_explore _ _)).mp (hkey.trans hkey'.symm)]

theorem isTrim (h : g.IsAugmentation a) : (toLRAutomaton h).IsTrim where
  reached := by
    intro s hs
    change s < a.lr0States.length at hs
    rw [lr0States_eq, List.length_map] at hs
    have hkey := List.getElem?_eq_getElem hs
    obtain ⟨symbols, s', below, hkey', path⟩ :=
      exists_path_of_mem_subsetKeys h (List.mem_of_getElem? hkey)
    obtain rfl := (List.getElem?_inj hs (nodup_explore _ _)).mp (hkey.trans hkey'.symm)
    exact ⟨symbols, below, path⟩
  expected := by
    intro s symbol next move
    obtain ⟨states, hstates, ⟨item, hitem, hnext⟩, -⟩ := (movesTo_iff h).mp move
    exact ⟨item, holdsAt_iff.mpr ⟨states, hstates, hitem⟩, hnext⟩
  eq_of_sameItems := by
    intro s hs s' hs' hsame
    change s < a.lr0States.length at hs
    change s' < a.lr0States.length at hs'
    rw [lr0States_eq, List.length_map] at hs hs'
    have hkey := List.getElem?_eq_getElem hs
    have hkey' := List.getElem?_eq_getElem hs'
    have hitems : ∀ item, InSubset a _ item ↔ InSubset a _ item := fun item => by
      have := hsame item
      change HoldsAt a.lr0States s item ↔ HoldsAt a.lr0States s' item at this
      simpa [holdsAt_iff, hkey, hkey'] using this
    have hhas := has_of_mem_subsetKeys h (List.mem_of_getElem? hkey)
    have hhas' := has_of_mem_subsetKeys h (List.mem_of_getElem? hkey')
    have heq := NatSet.ext fun n => ⟨mem_of_inSubset_imp hhas fun item => (hitems item).mp,
      mem_of_inSubset_imp hhas' fun item => (hitems item).mpr⟩
    refine (List.getElem?_inj hs (nodup_explore _ _)).mp ?_
    rw [hkey, hkey', heq]

end ItemAutomaton

/-- For every grammar that is read from text, the merged canonical states are the LR(0)
states up to their numbers and the lookaheads of their items. -/
theorem Grammar.exists_isRenumbering_mergeCores {text : String} (hg : Grammar.ofText text = .ok g) :
    ∃ a, g.augmented? = some a ∧
      ∃ f, IsRenumbering a.canonicalAutomaton.mergeCores a.lr0States f := by
  obtain ⟨a, haccept, h⟩ := (isPlain_of_ofText hg).exists_isAugmentation
  refine ⟨a, augmented?_of_withAcceptRule? haccept, ?_⟩
  exact (CanonicalAutomaton.isTrim_merged h).exists_isRenumbering (ItemAutomaton.isTrim h)

/-- The fourteen canonical states of this grammar are merged into ten.  The LR(0) states are
found in another order: the merged state 7 is not the LR(0) state 7. -/
theorem Grammar.exists_isRenumbering_mergeCores_assignment :
    ∃ g a f, Grammar.ofText "S -> L = R | R\nL -> * R | i\nR -> L\n" = .ok g ∧
      g.augmented? = some a ∧ a.canonicalAutomaton.states.length = 14 ∧
      a.canonicalAutomaton.mergeCores.length = 10 ∧
      IsRenumbering a.canonicalAutomaton.mergeCores a.lr0States f ∧ f 7 ≠ 7 := by
  have hcomputed : (Grammar.ofText "S -> L = R | R\nL -> * R | i\nR -> L\n").toOption.map
      (fun g => g.augmented?.map fun a =>
        (a.canonicalAutomaton.states.length, a.canonicalAutomaton.mergeCores.length,
          decide (a.canonicalAutomaton.mergeCores[7]?.map (fun state => state.items.cores) =
            a.lr0States[7]?.map fun state => state.items.cores))) =
      some (some (14, 10, false)) := by decide +kernel
  obtain ⟨g, hg, hcomputed⟩ := Grammar.exists_of_ofText hcomputed
  obtain ⟨a, haugmented, f, hf⟩ := Grammar.exists_isRenumbering_mergeCores hg
  rw [haugmented, Option.map_some, Option.some.injEq] at hcomputed
  simp only [Prod.mk.injEq, decide_eq_false_iff_not] at hcomputed
  obtain ⟨hcanonical, hmerged, hcores⟩ := hcomputed
  refine ⟨g, a, f, hg, haugmented, hcanonical, hmerged, hf, ?_⟩
  intro hsame
  apply hcores
  have hstate := List.getElem?_eq_getElem (show 7 < a.canonicalAutomaton.mergeCores.length by omega)
  obtain ⟨other, hother, hitems, -⟩ := hf.exists_other 7 _ hstate
  rw [hsame] at hother
  rw [hstate, hother, Option.map_some, Option.map_some, hitems]

end GrammarAnalysis

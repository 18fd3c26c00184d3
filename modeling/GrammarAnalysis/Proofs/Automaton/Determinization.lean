import GrammarAnalysis.Proofs.Automaton.Edges
import GrammarAnalysis.Proofs.Automaton.Transitions

/-!
# The subset construction succeeds and keeps the words

The construction lists every nonempty set of states that the automaton meets
after some word.  A set has one successor on a terminal at most, so the listed
sets make a deterministic automaton, and its state after a word is the number of
the set of states after this word.
-/

namespace GrammarAnalysis

/-! ## Building deterministic automata -/

namespace Dfa

variable {dfa dfa' dfa'' : Dfa} {edges more : List Transition}

/-- Whether the second automaton is the first one with more transitions. -/
structure Extends (dfa : Dfa) (edges : List Transition) (dfa' : Dfa) : Prop where
  states_eq : dfa'.states = dfa.states
  start_eq : dfa'.start = dfa.start
  finals_eq : dfa'.finals = dfa.finals
  transition?_iff : ∀ {source t target}, dfa'.transition? source t = some target ↔
    dfa.transition? source t = some target ∨ ⟨source, t, target⟩ ∈ edges

theorem Extends.refl (dfa : Dfa) : dfa.Extends [] dfa := by
  constructor <;> simp

theorem Extends.trans (h : dfa.Extends edges dfa') (h' : dfa'.Extends more dfa'') :
    dfa.Extends (edges ++ more) dfa'' where
  states_eq := h'.states_eq.trans h.states_eq
  start_eq := h'.start_eq.trans h.start_eq
  finals_eq := h'.finals_eq.trans h.finals_eq
  transition?_iff := by
    intro source t target
    rw [h'.transition?_iff, h.transition?_iff, List.mem_append, or_assoc]

theorem checkState_of_lt {states state : Nat} (h : state < states) :
    checkState states state = .ok () :=
  if_pos h

theorem addTransition_known {edge : Transition}
    (hrange : edge.source < dfa.states ∧ edge.target < dfa.states)
    (h : dfa.transition? edge.source edge.terminal = some edge.target) :
    dfa.addTransition edge = .ok dfa := by
  rw [transition?] at h
  rw [addTransition, checkState_of_lt hrange.1, checkState_of_lt hrange.2, h]
  exact if_pos rfl

theorem addTransition_new {edge : Transition}
    (hrange : edge.source < dfa.states ∧ edge.target < dfa.states)
    (h : dfa.transition? edge.source edge.terminal = none) :
    dfa.addTransition edge = .ok { dfa with
      transitions := dfa.transitions.insert (edge.source, edge.terminal) edge.target } := by
  rw [transition?] at h
  rw [addTransition, checkState_of_lt hrange.1, checkState_of_lt hrange.2, h]
  rfl

/-- A transition between states of the automaton is added unless there is another
one from its source on its terminal. -/
theorem exists_addTransition {edge : Transition}
    (hrange : edge.source < dfa.states ∧ edge.target < dfa.states)
    (hsame : ∀ target, dfa.transition? edge.source edge.terminal = some target →
      target = edge.target) :
    ∃ dfa', dfa.addTransition edge = .ok dfa' ∧ dfa.Extends [edge] dfa' := by
  cases hknown : dfa.transition? edge.source edge.terminal with
  | some target =>
      rw [hsame target hknown] at hknown
      refine ⟨dfa, addTransition_known hrange hknown, rfl, rfl, rfl, ?_⟩
      intro source t target
      apply (or_iff_left_of_imp ?_).symm
      intro hmem
      rw [← List.mem_singleton.mp hmem] at hknown
      exact hknown
  | none =>
      refine ⟨_, addTransition_new hrange hknown, rfl, rfl, rfl, ?_⟩
      intro source t target
      rw [transition?, OrderedMap.get?_insert, List.mem_singleton]
      split
      · next hkey =>
        obtain ⟨rfl, rfl⟩ := Prod.mk.inj hkey
        rw [hknown]
        obtain ⟨source, t, next⟩ := edge
        simp [eq_comm]
      · next hkey =>
        apply (or_iff_left_of_imp ?_).symm
        intro heq
        exact absurd (by rw [← heq]) hkey

/-- Transitions between states of the automaton are added if they go on as the
present ones and as each other. -/
theorem exists_foldlM_addTransition
    (hrange : ∀ edge ∈ edges, edge.source < dfa.states ∧ edge.target < dfa.states)
    (hsame : ∀ edge ∈ edges, ∀ target, dfa.transition? edge.source edge.terminal = some target ∨
      ⟨edge.source, edge.terminal, target⟩ ∈ edges → target = edge.target) :
    ∃ dfa', edges.foldlM addTransition dfa = .ok dfa' ∧ dfa.Extends edges dfa' := by
  induction edges generalizing dfa with
  | nil => exact ⟨dfa, rfl, Extends.refl dfa⟩
  | cons edge rest ih =>
      obtain ⟨next, hnext, hextends⟩ := exists_addTransition (hrange edge (by simp))
        fun target htarget => hsame edge (by simp) target (Or.inl htarget)
      have hrest : ∀ other ∈ rest, other.source < next.states ∧ other.target < next.states := by
        intro other hother
        rw [hextends.states_eq]
        exact hrange other (List.mem_cons_of_mem _ hother)
      obtain ⟨last, hlast, hmore⟩ := ih hrest fun other hother target htarget => by
        apply hsame other (List.mem_cons_of_mem _ hother) target
        rw [hextends.transition?_iff, or_assoc, ← List.mem_append] at htarget
        exact htarget
      refine ⟨last, ?_, hextends.trans hmore⟩
      rw [List.foldlM_cons, hnext]
      exact hlast

/-- States in range and transitions without a choice make an automaton. -/
theorem exists_ofTransitions {states start : Nat} {finals : List Nat} (hstart : start < states)
    (hfinals : ∀ state ∈ finals, state < states)
    (hrange : ∀ edge ∈ edges, edge.source < states ∧ edge.target < states)
    (hsame : ∀ edge ∈ edges, ∀ target,
      ⟨edge.source, edge.terminal, target⟩ ∈ edges → target = edge.target) :
    ∃ dfa, ofTransitions states start finals edges = .ok dfa ∧
      Extends ⟨states, start, NatSet.ofList finals, ∅⟩ edges dfa := by
  have hchecked : finals.forM (checkState states) = .ok () := by
    induction finals with
    | nil => rfl
    | cons first rest ih =>
        rw [List.forM_eq_forM, List.forM_cons, checkState_of_lt (hfinals first (by simp))]
        exact ih fun state hstate => hfinals state (List.mem_cons_of_mem _ hstate)
  rw [ofTransitions, checkState_of_lt hstart, hchecked]
  apply exists_foldlM_addTransition hrange
  intro edge hedge target htarget
  rcases htarget with hnone | htarget
  · simp [transition?] at hnone
  · exact hsame edge hedge target htarget

end Dfa

namespace Nfa

variable {nfa : Nfa} {i j : Nat} {t : TerminalId} {word : List TerminalId} {states next : NatSet}

/-! ## Listed subsets -/

/-- The subsets in order of discovery. -/
def subsetKeys (nfa : Nfa) : List NatSet := nfa.subsets.map Prod.fst

/-- The start and the ends of all edges. -/
def edgeEnds (nfa : Nfa) : List Nat :=
  nfa.start :: (nfa.epsilonEnds ++ nfa.transitions.values.flatMap NatSet.toList)

theorem length_edgeEnds (nfa : Nfa) :
    nfa.edgeEnds.length = nfa.epsilonCount + nfa.transitionCount + 1 := by
  rw [edgeEnds, List.length_cons, List.length_append, length_epsilonEnds,
    length_flatMap_eq_totalBy]
  rfl

theorem get?_transitions_of_mem_targets {n k : Nat} (h : n ∈ nfa.targets k t) :
    nfa.transitions.get? (k, t) = some (nfa.targets k t) := by
  rw [targets] at h ⊢
  cases htargets : nfa.transitions.get? (k, t) with
  | none => simp [htargets] at h
  | some targets => rfl

theorem mem_vocabulary_of_mem_targets {n k : Nat} (h : n ∈ nfa.targets k t) :
    t ∈ nfa.vocabulary := by
  have hkey := OrderedMap.mem_keys_of_get? (get?_transitions_of_mem_targets h)
  exact mem_distinct.mpr (List.mem_map.mpr ⟨(k, t), hkey, rfl⟩)

theorem mem_expandSubset_iff :
    (t, next) ∈ nfa.expandSubset states ↔ next = nfa.advance states t ∧ ∃ n, n ∈ next := by
  rw [expandSubset, List.mem_filter, List.mem_map, Bool.not_eq_true', NatSet.isEmpty_eq_false_iff]
  constructor
  · intro ⟨⟨u, _, hentry⟩, hmem⟩
    obtain ⟨rfl, rfl⟩ := Prod.mk.inj hentry
    exact ⟨rfl, hmem⟩
  · intro ⟨hnext, n, hn⟩
    subst hnext
    obtain ⟨k, -, j, hj, -⟩ := mem_advance_iff.mp hn
    exact ⟨⟨t, mem_vocabulary_of_mem_targets hj, rfl⟩, n, hn⟩

/-- Whether a set consists of the start and of ends of edges. -/
def Meets (nfa : Nfa) (states : NatSet) : Prop := ∀ n ∈ states, n ∈ nfa.edgeEnds

theorem mem_edgeEnds_of_reflTransGen {n m : Nat} (hn : n ∈ nfa.edgeEnds)
    (h : Relation.ReflTransGen (fun k j => j ∈ nfa.epsilonTargets k) n m) : m ∈ nfa.edgeEnds := by
  cases h.cases_tail with
  | inl heq =>
      rw [heq]
      exact hn
  | inr hlast =>
      obtain ⟨k, -, hedge⟩ := hlast
      exact List.mem_cons_of_mem _ (List.mem_append_left _ (mem_epsilonEnds_of_mem hedge))

theorem meets_startStates (nfa : Nfa) : nfa.Meets nfa.startStates := by
  intro n hn
  obtain ⟨r, hr, hreach⟩ := mem_epsilonClosure_iff.mp hn
  apply mem_edgeEnds_of_reflTransGen ?_ hreach
  rw [List.mem_singleton.mp hr]
  exact List.mem_cons_self

theorem meets_advance (nfa : Nfa) (states : NatSet) (t : TerminalId) :
    nfa.Meets (nfa.advance states t) := by
  intro n hn
  obtain ⟨k, -, j, hj, hreach⟩ := mem_advance_iff.mp hn
  apply mem_edgeEnds_of_reflTransGen ?_ hreach
  refine List.mem_cons_of_mem _ (List.mem_append_right _ (List.mem_flatMap.mpr ?_))
  exact ⟨_, OrderedMap.mem_values_of_get? (get?_transitions_of_mem_targets hj), hj⟩

/-- There are no more subsets than the bound of the construction. -/
theorem atMost_meets (nfa : Nfa) :
    AtMost (Nat.pow 2 (nfa.epsilonCount + nfa.transitionCount + 1) + 1) nfa.Meets := by
  apply atMost_of_sets fun _ h => h
  rw [length_edgeEnds]
  exact Nat.le_succ _

theorem meets_roots (nfa : Nfa) : ∀ states ∈ [nfa.startStates], nfa.Meets states := by
  intro states hstates
  rw [List.mem_singleton.mp hstates]
  exact nfa.meets_startStates

theorem meets_of_leads
    (h : Leads nfa.expandSubset (fun followers => followers.map Prod.snd) states next) :
    nfa.Meets next := by
  obtain ⟨⟨t, target⟩, hentry, rfl⟩ := List.mem_map.mp h
  obtain ⟨rfl, -⟩ := mem_expandSubset_iff.mp hentry
  exact nfa.meets_advance states t

theorem mem_subsetKeys_iff :
    states ∈ nfa.subsetKeys ↔ Relation.ReflTransGen
      (Leads nfa.expandSubset fun followers => followers.map Prod.snd)
      nfa.startStates states := by
  rw [subsetKeys, subsets, mem_explore_iff nfa.meets_roots (fun _ _ _ => meets_of_leads)
    nfa.atMost_meets]
  simp

/-- The loop of the construction ends. -/
theorem explores_subsets (nfa : Nfa) :
    Explores nfa.expandSubset (fun followers => followers.map Prod.snd) [] [nfa.startStates]
      nfa.subsets := by
  rw [← distinct_singleton nfa.startStates]
  exact explores_explore nfa.meets_roots (fun _ _ _ => meets_of_leads) nfa.atMost_meets

theorem nodup_subsetKeys (nfa : Nfa) : nfa.subsetKeys.Nodup := nodup_explore _ _

theorem subsetKeys_zero (nfa : Nfa) : nfa.subsetKeys[0]? = some nfa.startStates :=
  head_explore nfa.startStates

/-- The nonempty successors of a listed set are listed. -/
theorem advance_mem_subsetKeys (hstates : states ∈ nfa.subsetKeys)
    (hnext : ∃ n, n ∈ nfa.advance states t) : nfa.advance states t ∈ nfa.subsetKeys := by
  apply mem_subsetKeys_iff.mpr
  apply (mem_subsetKeys_iff.mp hstates).tail
  exact List.mem_map_of_mem (mem_expandSubset_iff.mpr ⟨rfl, hnext⟩)

theorem idxOf_subsetKeys_iff (hstates : states ∈ nfa.subsetKeys) :
    j = nfa.subsetKeys.idxOf states ↔ nfa.subsetKeys[j]? = some states :=
  eq_idxOf_iff nfa.nodup_subsetKeys hstates

/-! ## The deterministic automaton -/

/-- Whether the states of a deterministic automaton stand for the listed sets. -/
structure IsTracedBy (nfa : Nfa) (dfa : Dfa) : Prop where
  start_eq : dfa.start = 0
  mem_finals_iff : ∀ {i}, i ∈ dfa.finals ↔
    ∃ states, nfa.subsetKeys[i]? = some states ∧ nfa.anyFinal states = true
  transition?_iff : ∀ {i t j}, dfa.transition? i t = some j ↔
    ∃ states, nfa.subsetKeys[i]? = some states ∧ (∃ n, n ∈ nfa.advance states t) ∧
      nfa.subsetKeys[j]? = some (nfa.advance states t)

/-- The transitions of the deterministic automaton. -/
def subsetTransitions (nfa : Nfa) : List Transition :=
  nfa.subsets.zipIdx.flatMap fun ((_, followers), source) =>
    followers.map fun (t, target) => ⟨source, t, nfa.subsetKeys.idxOf target⟩

theorem mem_subsetTransitions_iff :
    ⟨i, t, j⟩ ∈ nfa.subsetTransitions ↔
      ∃ states, nfa.subsetKeys[i]? = some states ∧ (∃ n, n ∈ nfa.advance states t) ∧
        nfa.subsetKeys[j]? = some (nfa.advance states t) := by
  constructor
  · intro h
    obtain ⟨⟨⟨states, followers⟩, source⟩, hentry, hmem⟩ := List.mem_flatMap.mp h
    have hsubset := List.mem_zipIdx_iff_getElem?.mp hentry
    have hfollowers : followers = nfa.expandSubset states :=
      expansion_of_mem_explore (List.mem_of_getElem? hsubset)
    obtain ⟨⟨u, next⟩, hnext, heq⟩ := List.mem_map.mp hmem
    obtain ⟨rfl, rfl, rfl⟩ := Transition.mk.inj heq
    rw [hfollowers] at hnext
    obtain ⟨rfl, hn⟩ := mem_expandSubset_iff.mp hnext
    have hstates : nfa.subsetKeys[source]? = some states := by
      rw [subsetKeys, List.getElem?_map, hsubset]
      rfl
    refine ⟨states, hstates, hn, ?_⟩
    exact List.getElem?_idxOf (advance_mem_subsetKeys (List.mem_of_getElem? hstates) hn)
  · intro ⟨states, hstates, hn, hj⟩
    rw [subsetKeys, List.getElem?_map, Option.map_eq_some_iff] at hstates
    obtain ⟨⟨states, followers⟩, hsubset, rfl⟩ := hstates
    have hentry : ((states, followers), i) ∈ nfa.subsets.zipIdx :=
      List.mem_zipIdx_iff_getElem?.mpr hsubset
    have hfollowers : followers = nfa.expandSubset states :=
      expansion_of_mem_explore (List.mem_of_getElem? hsubset)
    have hmem := List.mem_of_getElem? hj
    refine List.mem_flatMap.mpr ⟨_, hentry, List.mem_map.mpr ⟨(t, nfa.advance states t), ?_, ?_⟩⟩
    · rw [hfollowers]
      exact mem_expandSubset_iff.mpr ⟨rfl, hn⟩
    · rw [(idxOf_subsetKeys_iff hmem).mpr hj]

/-- The final states of the deterministic automaton. -/
def subsetFinals (nfa : Nfa) : List Nat :=
  (nfa.subsets.zipIdx.filter fun entry => nfa.anyFinal entry.1.1).map Prod.snd

theorem mem_subsetFinals_iff :
    i ∈ nfa.subsetFinals ↔
      ∃ states, nfa.subsetKeys[i]? = some states ∧ nfa.anyFinal states = true := by
  simp only [subsetFinals, subsetKeys, List.mem_map, List.mem_filter,
    List.mem_zipIdx_iff_getElem?, Prod.exists, exists_eq_right, List.getElem?_map,
    Option.map_eq_some_iff, exists_and_right]

/-- The subset construction succeeds for every automaton. -/
theorem exists_toDfa (nfa : Nfa) : ∃ dfa, nfa.toDfa = .ok dfa ∧ nfa.IsTracedBy dfa := by
  have hlt : ∀ {i states}, nfa.subsetKeys[i]? = some states → i < nfa.subsets.length := by
    intro i states hi
    obtain ⟨hi, -⟩ := List.getElem?_eq_some_iff.mp hi
    rwa [subsetKeys, List.length_map] at hi
  have hfinals : ∀ i ∈ nfa.subsetFinals, i < nfa.subsets.length := by
    intro i hi
    obtain ⟨states, hstates, -⟩ := mem_subsetFinals_iff.mp hi
    exact hlt hstates
  have hrange : ∀ edge ∈ nfa.subsetTransitions,
      edge.source < nfa.subsets.length ∧ edge.target < nfa.subsets.length := by
    intro edge hedge
    obtain ⟨states, hsource, -, htarget⟩ := mem_subsetTransitions_iff.mp hedge
    exact ⟨hlt hsource, hlt htarget⟩
  have hsame : ∀ edge ∈ nfa.subsetTransitions, ∀ target,
      ⟨edge.source, edge.terminal, target⟩ ∈ nfa.subsetTransitions → target = edge.target := by
    intro edge hedge target hother
    obtain ⟨states, hsource, -, htarget⟩ := mem_subsetTransitions_iff.mp hedge
    obtain ⟨others, hsource', -, htarget'⟩ := mem_subsetTransitions_iff.mp hother
    rw [Option.some.inj (hsource'.symm.trans hsource)] at htarget'
    have hmem := List.mem_of_getElem? htarget
    rw [(idxOf_subsetKeys_iff hmem).mpr htarget, (idxOf_subsetKeys_iff hmem).mpr htarget']
  obtain ⟨dfa, hdfa, hextends⟩ :=
    Dfa.exists_ofTransitions (hlt nfa.subsetKeys_zero) hfinals hrange hsame
  refine ⟨dfa, hdfa, hextends.start_eq, ?_, ?_⟩
  · intro i
    rw [hextends.finals_eq, NatSet.mem_ofList, mem_subsetFinals_iff]
  · intro i t j
    rw [hextends.transition?_iff, mem_subsetTransitions_iff]
    simp [Dfa.transition?]

namespace IsTracedBy

variable {dfa : Dfa}

/-- The automaton accepts from the number of a set what the set accepts. -/
theorem accepts_iff (h : nfa.IsTracedBy dfa) (hi : nfa.subsetKeys[i]? = some states) :
    (∃ j ∈ dfa.finals, dfa.read? i word = some j) ↔
      nfa.anyFinal (word.foldl nfa.advance states) = true := by
  induction word generalizing i states with
  | nil =>
      simp only [Dfa.read?, Option.some.injEq, exists_eq_right', List.foldl_nil,
        h.mem_finals_iff, hi, exists_eq_left']
  | cons t word ih =>
      rw [List.foldl_cons]
      by_cases hnext : ∃ n, n ∈ nfa.advance states t
      · have hlisted := advance_mem_subsetKeys (List.mem_of_getElem? hi) hnext
        have hj := List.getElem?_idxOf hlisted
        have hmove := h.transition?_iff.mpr ⟨states, hi, hnext, hj⟩
        simp only [Dfa.read?, hmove, Option.bind_some]
        exact ih hj
      · -- no set is left, so the automaton stops and no state is final
        constructor
        · intro ⟨last, _, hread⟩
          obtain ⟨j, hmove, -⟩ := Option.bind_eq_some_iff.mp hread
          obtain ⟨_, hi', hn, -⟩ := h.transition?_iff.mp hmove
          rw [Option.some.inj (hi'.symm.trans hi)] at hn
          exact absurd hn hnext
        · intro hfinal
          obtain ⟨last, -, hlast⟩ := anyFinal_iff.mp hfinal
          obtain ⟨n, hn, -⟩ := exists_path_of_mem_foldl hlast
          exact absurd ⟨n, hn⟩ hnext

theorem recognizes_iff (h : nfa.IsTracedBy dfa) :
    dfa.recognizes word = true ↔ nfa.recognizes word = true := by
  rw [Nfa.recognizes, ← h.accepts_iff nfa.subsetKeys_zero, Dfa.recognizes, h.start_eq]
  cases dfa.read? 0 word <;> simp

end IsTracedBy

/-! ## Automata that are built edge by edge -/

/-- For every automaton that is made by adding edges and final states, with any numbers as
states, the loops of the epsilon closures and of the construction end, and the construction
gives an automaton.  Both automata recognize exactly the words of the walks along the added
edges from the start to an added final state. -/
theorem toDfa_exact {links : List (Link TerminalId)} {finals : List Nat}
    (h : nfa.IsBuilt links finals) :
    (∀ seeds, Collects nfa.epsilonTargets seeds (nfa.epsilonClosure seeds)) ∧
    Explores nfa.expandSubset (fun followers => followers.map Prod.snd) [] [nfa.startStates]
      nfa.subsets ∧
    ∃ dfa, nfa.toDfa = .ok dfa ∧ ∀ word,
      (dfa.recognizes word = true ↔ ∃ last ∈ finals, Link.Walk links nfa.start word last) ∧
      (nfa.recognizes word = true ↔ ∃ last ∈ finals, Link.Walk links nfa.start word last) := by
  obtain ⟨dfa, hdfa, htraced⟩ := nfa.exists_toDfa
  have hwalks : ∀ word, nfa.recognizes word = true ↔
      ∃ last ∈ finals, Link.Walk links nfa.start word last :=
    fun word => recognizes_iff_hasWord.trans h.hasWord_iff
  refine ⟨nfa.collects_epsilonClosure, nfa.explores_subsets, dfa, hdfa, fun word => ⟨?_, ?_⟩⟩
  · exact htraced.recognizes_iff.trans (hwalks word)
  · exact hwalks word

/-- A cycle of edges, two of them epsilon edges, through states that are beyond the declared one. -/
theorem toDfa_exact_undeclared :
    let nfa := ((((empty 1 0).addEpsilon 0 7).addTransition ⟨7, 1, 9⟩).addEpsilon 9 0).setFinal 9
    let links : List (Link TerminalId) := [⟨0, none, 7⟩, ⟨7, some 1, 9⟩, ⟨9, none, 0⟩]
    nfa.IsBuilt links [9] ∧ (∃ dfa, nfa.toDfa = .ok dfa ∧
      dfa.recognizes [1, 1] = true ∧ dfa.recognizes [] = false) ∧
      (∃ last ∈ [9], Link.Walk links 0 [1, 1] last) ∧ ¬ ∃ last ∈ [9], Link.Walk links 0 [] last := by
  intro nfa links
  have hbuilt : nfa.IsBuilt links [9] :=
    .setFinal 9 (.addEpsilon 9 0 (.addTransition ⟨7, 1, 9⟩ (.addEpsilon 0 7 (.empty 1 0))))
  obtain ⟨-, -, dfa, hdfa, hwords⟩ := toDfa_exact hbuilt
  have hread : nfa.recognizes [1, 1] = true := by decide
  have hempty : nfa.recognizes [] = false := by decide
  have hwalk := (hwords [1, 1]).2.mp hread
  have hnone : ¬ ∃ last ∈ [9], Link.Walk links 0 [] last := fun hwalk =>
    Bool.eq_false_iff.mp hempty ((hwords []).2.mpr hwalk)
  exact ⟨hbuilt, ⟨dfa, hdfa, (hwords [1, 1]).1.mpr hwalk,
    Bool.eq_false_iff.mpr fun h => hnone ((hwords []).1.mp h)⟩, hwalk, hnone⟩

end Nfa

end GrammarAnalysis

import GrammarAnalysis.Proofs.Automaton.Determinization
import GrammarAnalysis.Proofs.Regex.Elimination

/-!
# Automata and their edges from lists of transitions

A list of transitions makes an automaton exactly if all states are in range and no state
has two targets on one terminal (`Dfa.exists_ofTransitions_iff`).

The edges of an automaton can be kept while it is made.  A new transition is checked,
written down, and joined to the label of its edge at both ends; a repeated one changes
nothing.  What is kept in this way are the edges that are read off the automaton in the
end (`LabelledDfa.ofTransitions_eq`), so the two ends never drift apart.
-/

namespace GrammarAnalysis

/-! ## Lists of transitions -/

namespace Dfa

variable {dfa dfa' : Dfa} {states start : Nat} {finals : List Nat} {edges : List Transition}

/-- Whether the start, the final states and the ends of the transitions are below the number
of states, and transitions from one state on one terminal have one target. -/
structure DefineDfa (states start : Nat) (finals : List Nat) (edges : List Transition) :
    Prop where
  start_lt : start < states
  finals_lt : ∀ state ∈ finals, state < states
  edges_lt : ∀ edge ∈ edges, edge.source < states ∧ edge.target < states
  target_eq : ∀ edge ∈ edges, ∀ other ∈ edges, other.source = edge.source →
    other.terminal = edge.terminal → other.target = edge.target

theorem extends_of_addTransition {edge : Transition} (h : dfa.addTransition edge = .ok dfa') :
    dfa.Extends [edge] dfa' := by
  have hadded := h
  rw [addTransition] at hadded
  obtain ⟨_, hsource, hadded⟩ := exists_of_bind_eq_ok hadded
  obtain ⟨_, htarget, hadded⟩ := exists_of_bind_eq_ok hadded
  have hsame : ∀ target, dfa.transition? edge.source edge.terminal = some target →
      target = edge.target := by
    intro target hknown
    rw [transition?] at hknown
    by_contra hne
    simp [hknown, hne] at hadded
  obtain ⟨next, hnext, hextends⟩ :=
    exists_addTransition ⟨checkState_eq_ok hsource, checkState_eq_ok htarget⟩ hsame
  rwa [Except.ok.inj (h.symm.trans hnext)]

theorem extends_of_foldlM (h : edges.foldlM addTransition dfa = .ok dfa') :
    dfa.Extends edges dfa' := by
  induction edges generalizing dfa with
  | nil =>
      rw [← Except.ok.inj h]
      exact .refl dfa
  | cons edge rest ih =>
      rw [List.foldlM_cons] at h
      obtain ⟨next, hnext, h⟩ := exists_of_bind_eq_ok h
      exact (extends_of_addTransition hnext).trans (ih h)

theorem extends_of_ofTransitions (h : ofTransitions states start finals edges = .ok dfa) :
    Extends ⟨states, start, NatSet.ofList finals, ∅⟩ edges dfa := by
  rw [ofTransitions] at h
  obtain ⟨_, -, h⟩ := exists_of_bind_eq_ok h
  obtain ⟨_, -, h⟩ := exists_of_bind_eq_ok h
  exact extends_of_foldlM h

/-- An automaton has the transitions that it was made from, and no others. -/
theorem transition?_ofTransitions_iff (h : ofTransitions states start finals edges = .ok dfa)
    {p q : Nat} {t : TerminalId} : dfa.transition? p t = some q ↔ ⟨p, t, q⟩ ∈ edges := by
  rw [(extends_of_ofTransitions h).transition?_iff]
  exact or_iff_right (by simp [transition?])

theorem defineDfa_of_ofTransitions (h : ofTransitions states start finals edges = .ok dfa) :
    DefineDfa states start finals edges := by
  have hd := isInRange_of_ofTransitions h
  have hextends := extends_of_ofTransitions h
  have hstates : dfa.states = states := hextends.states_eq
  have hstart : dfa.start = start := hextends.start_eq
  have hfinals : dfa.finals = NatSet.ofList finals := hextends.finals_eq
  refine ⟨?_, ?_, ?_, ?_⟩
  · rw [← hstart, ← hstates]
    exact hd.start_lt
  · intro state hstate
    rw [← hstates]
    apply hd.finals_lt state
    rw [hfinals]
    exact NatSet.mem_ofList.mpr hstate
  · intro edge hedge
    rw [← hstates]
    exact hd.transitions_lt ((transition?_ofTransitions_iff h).mpr hedge)
  · rintro ⟨p, t, q⟩ hedge ⟨p', t', q'⟩ hother rfl rfl
    have htarget := (transition?_ofTransitions_iff h).mpr hedge
    rw [(transition?_ofTransitions_iff h).mpr hother, Option.some.injEq] at htarget
    exact htarget

theorem exists_ofTransitions_iff :
    (∃ dfa, ofTransitions states start finals edges = .ok dfa) ↔
      DefineDfa states start finals edges := by
  constructor
  · rintro ⟨dfa, h⟩
    exact defineDfa_of_ofTransitions h
  · intro h
    obtain ⟨dfa, hdfa, -⟩ := exists_ofTransitions h.start_lt h.finals_lt h.edges_lt
      fun edge hedge target htarget => h.target_eq edge hedge _ htarget rfl rfl
    exact ⟨dfa, hdfa⟩

end Dfa

/-! ## Edges that are kept -/

theorem OrderedMap.upsert_eq_insert {κ β : Type} [DecidableEq κ] (m : OrderedMap κ β) (k : κ)
    (f : Option β → β) : m.upsert k f = m.insert k (f (m.get? k)) := by
  apply eq_of_keys_eq
  · rw [insert, keys_upsert, keys_upsert]
  · intro j v hv
    rwa [get?_upsert, ← get?_insert] at hv

/-- Changing one row of a table. -/
theorem map_range_eq_modify {α : Type} {f g : Nat → α} {k n : Nat} {change : α → α}
    (hk : g k = change (f k)) (hne : ∀ i, i ≠ k → g i = f i) :
    (List.range n).map g = ((List.range n).map f).modify k change := by
  refine List.ext_getElem (by simp) fun i hi hi' => ?_
  rw [List.getElem_modify]
  by_cases hik : k = i
  · subst hik
    simp [hk]
  · simp [hik, hne i (Ne.symm hik)]

/-- An automaton with its edges, which are kept from both ends. -/
structure LabelledDfa where
  dfa : Dfa
  edges : EdgeTable

/-- The automaton with the edges that are read off its transitions. -/
def Dfa.labelled (dfa : Dfa) : LabelledDfa := ⟨dfa, .ofDfa dfa⟩

namespace LabelledDfa

/-- Adds a transition, also to the label of its edge.  A repeated transition changes
nothing. -/
def addTransition (labelled : LabelledDfa) (edge : Transition) :
    Except AutomatonError LabelledDfa := do
  let dfa := labelled.dfa
  Dfa.checkState dfa.states edge.source
  Dfa.checkState dfa.states edge.target
  match dfa.transitions.get? (edge.source, edge.terminal) with
  | some target =>
    if target = edge.target then .ok labelled
    else .error (.nondeterministic edge.source edge.terminal)
  | none =>
    .ok {
      dfa := { dfa with
        transitions := dfa.transitions.insert (edge.source, edge.terminal) edge.target }
      edges := labelled.edges.connect edge.source edge.target (.symbol edge.terminal) }

/-- The automaton with the given states and transitions, and its edges.  In the beginning
no state has an edge. -/
def ofTransitions (states start : Nat) (finals : List Nat) (transitions : List Transition) :
    Except AutomatonError LabelledDfa := do
  Dfa.checkState states start
  finals.forM (Dfa.checkState states)
  transitions.foldlM addTransition
    ⟨⟨states, start, NatSet.ofList finals, ∅⟩, List.replicate states ∅, List.replicate states ∅⟩

end LabelledDfa

namespace Adjacency

theorem join_eq_insert (adjacency : Adjacency) (state : Nat) (label : Regex) :
    adjacency.join state label = adjacency.insert state (match adjacency.get? state with
      | some existing => existing.either label
      | none => label) :=
  OrderedMap.upsert_eq_insert adjacency state _

end Adjacency

/-! ## Edges that are read off -/

namespace Dfa

variable {dfa : Dfa} {source target p q : Nat} {t : TerminalId}

theorem out_ofDfa (hp : p < dfa.states) : (EdgeTable.ofDfa dfa).out p = dfa.outgoing p := by
  simp [EdgeTable.out, EdgeTable.ofDfa, hp]

theorem into_ofDfa (hq : q < dfa.states) : (EdgeTable.ofDfa dfa).into q = dfa.incoming q := by
  simp [EdgeTable.into, EdgeTable.ofDfa, hq]

theorem entries_insert_transition (hnew : dfa.transition? source t = none) (target : Nat) :
    (dfa.transitions.insert (source, t) target).entries =
      dfa.transitions.entries ++ [((source, t), target)] := by
  apply OrderedMap.entries_insert_of_not_mem
  rw [OrderedMap.mem_keys_iff]
  rintro ⟨known, hknown⟩
  exact absurd (hnew.symm.trans hknown) (by simp)

theorem outgoing_insert (hnew : dfa.transition? source t = none) (p : Nat) :
    outgoing { dfa with transitions := dfa.transitions.insert (source, t) target } p =
      if source = p then (dfa.outgoing p).join target (.symbol t) else dfa.outgoing p := by
  rw [outgoing, entries_insert_transition hnew, List.foldl_append]
  rfl

theorem incoming_insert (hnew : dfa.transition? source t = none) (q : Nat) :
    incoming { dfa with transitions := dfa.transitions.insert (source, t) target } q =
      if target = q then (dfa.incoming q).join source (.symbol t) else dfa.incoming q := by
  rw [incoming, entries_insert_transition hnew, List.foldl_append]
  rfl

/-- A new transition joins the label of one edge, at both ends. -/
theorem ofDfa_insert (hsource : source < dfa.states) (hnew : dfa.transition? source t = none)
    (target : Nat) :
    EdgeTable.ofDfa { dfa with transitions := dfa.transitions.insert (source, t) target } =
      (EdgeTable.ofDfa dfa).connect source target (.symbol t) := by
  have hlabel : (EdgeTable.ofDfa dfa).label? source target = (dfa.outgoing source).get? target := by
    rw [EdgeTable.label?, out_ofDfa hsource]
  rw [EdgeTable.connect, hlabel, EdgeTable.ofDfa, EdgeTable.mk.injEq]
  refine ⟨map_range_eq_modify ?_ ?_, map_range_eq_modify ?_ ?_⟩
  · rewrite [incoming_insert hnew, if_pos rfl, Adjacency.join_eq_insert, get?_outgoing_eq]
    rfl
  · intro q hq
    rw [incoming_insert hnew, if_neg (Ne.symm hq)]
  · rewrite [outgoing_insert hnew, if_pos rfl, Adjacency.join_eq_insert]
    rfl
  · intro p hp
    rw [outgoing_insert hnew, if_neg (Ne.symm hp)]

end Dfa

namespace LabelledDfa

theorem addTransition_labelled (dfa : Dfa) (edge : Transition) :
    dfa.labelled.addTransition edge = (dfa.addTransition edge).map Dfa.labelled := by
  rw [addTransition, Dfa.addTransition]
  cases hsource : Dfa.checkState dfa.states edge.source with
  | error e => simp [Dfa.labelled, hsource, bind, Except.bind, Except.map]
  | ok _ =>
      cases htarget : Dfa.checkState dfa.states edge.target with
      | error e => simp [Dfa.labelled, hsource, htarget, bind, Except.bind, Except.map]
      | ok _ =>
          cases hknown : dfa.transition? edge.source edge.terminal with
          | some target =>
              rw [Dfa.transition?] at hknown
              simp only [Dfa.labelled, hsource, htarget, hknown, bind, Except.bind]
              split <;> rfl
          | none =>
              have hedges := Dfa.ofDfa_insert (Dfa.checkState_eq_ok hsource) hknown edge.target
              rw [Dfa.transition?] at hknown
              simp only [Dfa.labelled, hsource, htarget, hknown, bind, Except.bind, Except.map,
                hedges]

theorem foldlM_labelled (edges : List Transition) (dfa : Dfa) :
    edges.foldlM addTransition dfa.labelled =
      (edges.foldlM Dfa.addTransition dfa).map Dfa.labelled := by
  induction edges generalizing dfa with
  | nil => rfl
  | cons edge rest ih =>
      rw [List.foldlM_cons, List.foldlM_cons, addTransition_labelled]
      cases dfa.addTransition edge with
      | error e => rfl
      | ok next => exact ih next

/-- The edges that are kept are those that are read off the automaton. -/
theorem ofTransitions_eq (states start : Nat) (finals : List Nat) (edges : List Transition) :
    ofTransitions states start finals edges =
      (Dfa.ofTransitions states start finals edges).map Dfa.labelled := by
  have hfirst : (⟨⟨states, start, NatSet.ofList finals, ∅⟩, List.replicate states ∅,
      List.replicate states ∅⟩ : LabelledDfa) =
        Dfa.labelled ⟨states, start, NatSet.ofList finals, ∅⟩ := by
    have hnone : ∀ f : Nat → Adjacency, (∀ p, f p = ∅) →
        List.replicate states ∅ = (List.range states).map f := by
      intro f hf
      rw [funext hf, List.map_const', List.length_range]
    rw [Dfa.labelled, EdgeTable.ofDfa, LabelledDfa.mk.injEq, EdgeTable.mk.injEq]
    exact ⟨rfl, hnone _ fun _ => rfl, hnone _ fun _ => rfl⟩
  rw [ofTransitions, Dfa.ofTransitions, hfirst]
  cases Dfa.checkState states start with
  | error e => rfl
  | ok _ =>
      cases finals.forM (Dfa.checkState states) with
      | error e => rfl
      | ok _ => exact foldlM_labelled edges _

end LabelledDfa

namespace Dfa

/-- A list of transitions makes an automaton exactly if the states are in range and no state has
two targets on one terminal. The automaton has the given transitions and no others. The edges
that are kept while it is made are those that are read off it. Two states have an edge where
there is a transition; its label is the same from both ends and reads the terminals of the
transitions, as words of one letter. -/
theorem ofTransitions_labels_exact (states start : Nat) (finals : List Nat)
    (edges : List Transition) :
    ((∃ dfa, ofTransitions states start finals edges = .ok dfa) ↔
        DefineDfa states start finals edges) ∧
      LabelledDfa.ofTransitions states start finals edges =
        (ofTransitions states start finals edges).map labelled ∧
      ∀ dfa, ofTransitions states start finals edges = .ok dfa →
        (∀ p t q, dfa.transition? p t = some q ↔ ⟨p, t, q⟩ ∈ edges) ∧
        (∀ p < states, dfa.labelled.edges.out p = dfa.outgoing p) ∧
        (∀ q < states, dfa.labelled.edges.into q = dfa.incoming q) ∧
        ∀ p q, (dfa.outgoing p).get? q = (dfa.incoming q).get? p ∧
          (((dfa.outgoing p).get? q).isSome ↔ ∃ t, dfa.transition? p t = some q) ∧
          ∀ r, (dfa.outgoing p).get? q = some r → ∀ word, word ∈ r.language ↔
            ∃ t, word = [t] ∧ dfa.transition? p t = some q := by
  refine ⟨exists_ofTransitions_iff, LabelledDfa.ofTransitions_eq states start finals edges,
    fun dfa h => ?_⟩
  have hstates : dfa.states = states := (extends_of_ofTransitions h).states_eq
  refine ⟨fun p t q => transition?_ofTransitions_iff h, ?_, ?_, fun p q =>
    ⟨get?_outgoing_eq dfa p q, isSome_get?_outgoing, fun r hr word => ?_⟩⟩
  · intro p hp
    exact out_ofDfa (by rwa [hstates])
  · intro q hq
    exact into_ofDfa (by rwa [hstates])
  · rw [← mem_language_outgoing, hr]
    simp

/-- Two terminals lead from state 0 to state 1, and one transition is listed twice. -/
theorem ofTransitions_labels_exact_parallel :
    ∃ dfa, ofTransitions 2 0 [1] [⟨0, 1, 1⟩, ⟨0, 2, 1⟩, ⟨0, 1, 1⟩] = .ok dfa ∧
      (dfa.incoming 1).get? 0 = some (.union [.symbol 1, .symbol 2]) ∧
      ∀ word, word ∈ (Regex.union [.symbol 1, .symbol 2]).language ↔
        ∃ t, word = [t] ∧ dfa.transition? 0 t = some 1 := by
  obtain ⟨dfa, hdfa⟩ : ∃ dfa, ofTransitions 2 0 [1] [⟨0, 1, 1⟩, ⟨0, 2, 1⟩, ⟨0, 1, 1⟩] =
      .ok dfa := ⟨_, rfl⟩
  obtain ⟨-, -, -, hedges⟩ := (ofTransitions_labels_exact 2 0 [1]
    [⟨0, 1, 1⟩, ⟨0, 2, 1⟩, ⟨0, 1, 1⟩]).2.2 dfa hdfa
  obtain ⟨hmirror, -, hwords⟩ := hedges 0 1
  have hlabel : (dfa.outgoing 0).get? 1 = some (.union [.symbol 1, .symbol 2]) := by
    obtain rfl := Except.ok.inj hdfa
    rfl
  exact ⟨dfa, hdfa, hmirror ▸ hlabel, hwords _ hlabel⟩

end Dfa

end GrammarAnalysis

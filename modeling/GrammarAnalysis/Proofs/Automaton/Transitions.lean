import GrammarAnalysis.Automaton.Dfa
import GrammarAnalysis.Proofs.Collections.Maps
import GrammarAnalysis.Proofs.Grammar.Plain
import GrammarAnalysis.Proofs.Regex.Simplification

/-!
# Transitions of deterministic automata and their merged labels

An automaton that is made from a list of transitions keeps to its states.  The
parallel transitions between two states are one edge, which has the same label
from both ends and reads the terminals of these transitions.
-/

namespace GrammarAnalysis

/-! ## States in range -/

/-- Whether the start, the final states and the ends of the transitions are below
the number of states. -/
structure Dfa.IsInRange (dfa : Dfa) : Prop where
  start_lt : dfa.start < dfa.states
  finals_lt : ∀ state ∈ dfa.finals, state < dfa.states
  transitions_lt : ∀ {source t target}, dfa.transition? source t = some target →
    source < dfa.states ∧ target < dfa.states

namespace Dfa

theorem checkState_eq_ok {states state : Nat} (h : checkState states state = .ok ()) :
    state < states := by
  rw [checkState] at h
  split at h
  · assumption
  · contradiction

theorem IsInRange.addTransition {dfa dfa' : Dfa} (hd : dfa.IsInRange) {edge : Transition}
    (h : dfa.addTransition edge = .ok dfa') : dfa'.IsInRange := by
  rw [Dfa.addTransition] at h
  obtain ⟨_, hsource, h⟩ := exists_of_bind_eq_ok h
  obtain ⟨_, htarget, h⟩ := exists_of_bind_eq_ok h
  split at h
  · split at h
    · rw [← Except.ok.inj h]
      exact hd
    · contradiction
  · rw [← Except.ok.inj h]
    refine { hd with transitions_lt := ?_ }
    intro source t target htransition
    rw [transition?, OrderedMap.get?_insert] at htransition
    split at htransition
    · next hkey =>
      obtain ⟨rfl, -⟩ := Prod.mk.inj hkey
      rw [← Option.some.inj htransition]
      exact ⟨checkState_eq_ok hsource, checkState_eq_ok htarget⟩
    · exact hd.transitions_lt htransition

theorem isInRange_of_ofTransitions {states start : Nat} {finals : List Nat}
    {transitions : List Transition} {dfa : Dfa}
    (h : ofTransitions states start finals transitions = .ok dfa) : dfa.IsInRange := by
  rw [ofTransitions] at h
  obtain ⟨_, hstart, h⟩ := exists_of_bind_eq_ok h
  obtain ⟨_, hfinals, h⟩ := exists_of_bind_eq_ok h
  have hbelow : ∀ finals : List Nat, finals.forM (checkState states) = .ok () →
      ∀ state ∈ finals, state < states := by
    intro finals
    induction finals with
    | nil => simp
    | cons first rest ih =>
        intro hall state hstate
        obtain ⟨_, hfirst, hrest⟩ := exists_of_bind_eq_ok
          (f := fun _ => rest.forM (checkState states)) hall
        rcases List.mem_cons.mp hstate with rfl | hstate
        · exact checkState_eq_ok hfirst
        · exact ih hrest state hstate
  have hadd : ∀ (transitions : List Transition) (first : Dfa), first.IsInRange →
      transitions.foldlM addTransition first = .ok dfa → dfa.IsInRange := by
    intro transitions
    induction transitions with
    | nil =>
        intro first hfirst hdfa
        rw [← Except.ok.inj hdfa]
        exact hfirst
    | cons edge rest ih =>
        intro first hfirst hdfa
        rw [List.foldlM_cons] at hdfa
        obtain ⟨next, hnext, hdfa⟩ := exists_of_bind_eq_ok hdfa
        exact ih next (hfirst.addTransition hnext) hdfa
  refine hadd transitions _ ⟨checkState_eq_ok hstart, ?_, ?_⟩ h
  · intro state hstate
    exact hbelow finals hfinals state (NatSet.mem_ofList.mp hstate)
  · intro source t target htransition
    simp [transition?] at htransition

end Dfa

/-! ## Merged labels -/

namespace Adjacency

/-- The label with one more alternative. -/
def alternative (label : Option Regex) (r : Regex) : Option Regex :=
  some (match label with
    | some existing => existing.either r
    | none => r)

theorem get?_join (adjacency : Adjacency) (state j : Nat) (label : Regex) :
    (adjacency.join state label).get? j =
      if j = state then alternative (adjacency.get? state) label else adjacency.get? j := by
  rw [join, OrderedMap.get?_upsert]
  rfl

/-- Joining those of the listed letters that pass a test joins the label of each
state with the letters for this state. -/
theorem get?_foldl_join {ε : Type} (test : ε → Prop) [DecidablePred test] (key : ε → Nat)
    (letter : ε → TerminalId) (entries : List ε) (adjacency : Adjacency) (j : Nat) :
    (entries.foldl (fun edges entry =>
        if test entry then edges.join (key entry) (.symbol (letter entry)) else edges)
      adjacency).get? j =
      entries.foldl (fun label entry =>
        if test entry ∧ key entry = j then alternative label (.symbol (letter entry)) else label)
      (adjacency.get? j) := by
  induction entries generalizing adjacency with
  | nil => rfl
  | cons entry rest ih =>
      rw [List.foldl_cons, List.foldl_cons, ih]
      congr 1
      by_cases htest : test entry
      · rw [if_pos htest, get?_join]
        by_cases hkey : key entry = j
        · rw [if_pos hkey.symm, if_pos ⟨htest, hkey⟩, hkey]
        · rw [if_neg (Ne.symm hkey), if_neg fun h => hkey h.2]
      · rw [if_neg htest, if_neg fun h => htest h.1]

/-- A label that is joined from letters exists if there are any, and reads them. -/
theorem foldl_alternative {ε : Type} (test : ε → Prop) [DecidablePred test]
    (letter : ε → TerminalId) (entries : List ε) (label : Option Regex) :
    ((entries.foldl (fun label entry =>
        if test entry then alternative label (.symbol (letter entry)) else label) label).isSome ↔
      label.isSome ∨ ∃ entry ∈ entries, test entry) ∧
    ∀ word, (∃ r, entries.foldl (fun label entry =>
        if test entry then alternative label (.symbol (letter entry)) else label) label = some r ∧
          word ∈ r.language) ↔
      (∃ r, label = some r ∧ word ∈ r.language) ∨
        ∃ entry ∈ entries, test entry ∧ word = [letter entry] := by
  induction entries generalizing label with
  | nil => simp
  | cons entry rest ih =>
      obtain ⟨ihSome, ihWords⟩ := ih
        (if test entry then alternative label (.symbol (letter entry)) else label)
      rw [List.foldl_cons]
      refine ⟨?_, fun word => ?_⟩
      · rw [ihSome, List.exists_mem_cons_iff, ← or_assoc]
        refine or_congr_left ?_
        split
        · next htest => simp [alternative, htest]
        · next htest => simp [htest]
      · rw [ihWords, List.exists_mem_cons_iff, ← or_assoc]
        refine or_congr_left ?_
        split
        · next htest =>
          cases label with
          | none => simp [alternative, htest, ← Regex.mem_language_symbol]
          | some existing => simp [alternative, htest, Language.mem_add, ← Regex.mem_language_symbol]
        · next htest => simp [htest]

end Adjacency

namespace Dfa

variable {dfa : Dfa} {p q : Nat}

/-- The label of an edge is the same from both ends. -/
theorem get?_outgoing_eq (dfa : Dfa) (p q : Nat) :
    (dfa.outgoing p).get? q = (dfa.incoming q).get? p := by
  rw [outgoing, incoming, Adjacency.get?_foldl_join (fun entry : (Nat × TerminalId) × Nat => entry.1.1 = p),
    Adjacency.get?_foldl_join (fun entry : (Nat × TerminalId) × Nat => entry.2 = q)]
  congr 1
  funext label entry
  exact if_congr and_comm rfl rfl

theorem mem_transitions_iff {t : TerminalId} :
    ((p, t), q) ∈ dfa.transitions.entries ↔ dfa.transition? p t = some q :=
  OrderedMap.get?_eq_some_iff.symm

/-- There is an edge where there is a transition. -/
theorem isSome_get?_outgoing :
    ((dfa.outgoing p).get? q).isSome ↔ ∃ t, dfa.transition? p t = some q := by
  rw [outgoing, Adjacency.get?_foldl_join (fun entry : (Nat × TerminalId) × Nat => entry.1.1 = p),
    (Adjacency.foldl_alternative _ _ _ _).1]
  simp only [OrderedMap.get?_empty, Option.isSome_none, Bool.false_eq_true, false_or, Prod.exists,
    ← mem_transitions_iff]
  constructor
  · rintro ⟨p, t, q, hentry, rfl, rfl⟩
    exact ⟨t, hentry⟩
  · rintro ⟨t, hentry⟩
    exact ⟨p, t, q, hentry, rfl, rfl⟩

/-- An edge reads the terminals of its transitions. -/
theorem mem_language_outgoing {word : List TerminalId} :
    (∃ r, (dfa.outgoing p).get? q = some r ∧ word ∈ r.language) ↔
      ∃ t, word = [t] ∧ dfa.transition? p t = some q := by
  rw [outgoing, Adjacency.get?_foldl_join (fun entry : (Nat × TerminalId) × Nat => entry.1.1 = p),
    (Adjacency.foldl_alternative _ _ _ _).2]
  simp only [OrderedMap.get?_empty, reduceCtorEq, false_and, exists_false, false_or, Prod.exists,
    ← mem_transitions_iff]
  constructor
  · rintro ⟨p, t, q, hentry, ⟨rfl, rfl⟩, rfl⟩
    exact ⟨t, rfl, hentry⟩
  · rintro ⟨t, rfl, hentry⟩
    exact ⟨p, t, q, hentry, ⟨rfl, rfl⟩, rfl⟩

end Dfa

end GrammarAnalysis

import GrammarAnalysis.Proofs.Automaton.Transitions
import GrammarAnalysis.Regex.Elimination

/-!
# The states that the search from the start finds

The search visits the start, and with a state also the targets of its edges.
Its bound is large enough: a state on the stack is dropped or visited, and what
a visit puts on the stack is paid for by the transitions of the visited state.
-/

namespace GrammarAnalysis

/-- Joining labels adds at most one edge for each of the letters. -/
theorem Adjacency.length_keys_foldl_join {ε : Type} (test : ε → Prop) [DecidablePred test]
    (key : ε → Nat) (letter : ε → TerminalId) (entries : List ε) (adjacency : Adjacency) :
    (entries.foldl (fun edges entry =>
        if test entry then edges.join (key entry) (.symbol (letter entry)) else edges)
      adjacency).keys.length ≤
      adjacency.keys.length + entries.countP (fun entry => test entry) := by
  induction entries generalizing adjacency with
  | nil => simp
  | cons entry rest ih =>
      rw [List.foldl_cons, List.countP_cons]
      refine (ih _).trans ?_
      by_cases htest : test entry
      · have hjoin : (adjacency.join (key entry) (.symbol (letter entry))).keys.length ≤
            adjacency.keys.length + 1 := by
          rw [join, OrderedMap.keys_upsert]
          split <;> simp
        simp only [htest, if_true, decide_true]
        omega
      · simp [htest]

namespace Dfa

variable {dfa : Dfa} {p q : Nat}

theorem length_keys_outgoing_le (dfa : Dfa) (state : Nat) :
    (dfa.outgoing state).keys.length ≤
      dfa.transitions.entries.countP fun entry => entry.1.1 = state := by
  have hjoin := Adjacency.length_keys_foldl_join
    (fun entry : (Nat × TerminalId) × Nat => entry.1.1 = state) (fun entry => entry.2)
    (fun entry => entry.1.2) dfa.transitions.entries ∅
  have hempty : (∅ : Adjacency).keys.length = 0 := rfl
  rw [outgoing]
  omega

/-- The number of transitions that leave other states than the visited ones. -/
def pendingTransitions (dfa : Dfa) (visited : List Nat) : Nat :=
  dfa.transitions.entries.countP fun entry => !visited.contains entry.1.1

theorem pendingTransitions_nil (dfa : Dfa) :
    dfa.pendingTransitions [] = dfa.transitions.size := by
  simp [pendingTransitions, OrderedMap.size]

/-- A visit takes the transitions of the state from the pending ones. -/
theorem pendingTransitions_append {visited : List Nat} {state : Nat} (hnew : state ∉ visited) :
    dfa.pendingTransitions visited =
      dfa.pendingTransitions (visited ++ [state]) +
        dfa.transitions.entries.countP fun entry => entry.1.1 = state := by
  simp only [pendingTransitions]
  induction dfa.transitions.entries with
  | nil => rfl
  | cons entry rest ih =>
      simp only [List.countP_cons, ih]
      by_cases hentry : entry.1.1 = state
      · simp [hentry, hnew]
        omega
      · simp [hentry]
        omega

/-- The visit finds what is visited already and what is on the stack, and leaves no
target of a newly visited state out. -/
theorem visit_complete (bound : Nat) (stack visited : List Nat)
    (hbound : stack.length + dfa.pendingTransitions visited ≤ bound) :
    visited ⊆ dfa.visit bound stack visited ∧ stack ⊆ dfa.visit bound stack visited ∧
      ∀ state ∈ dfa.visit bound stack visited, state ∉ visited →
        (dfa.outgoing state).keys ⊆ dfa.visit bound stack visited := by
  induction bound, stack, visited using Dfa.visit.induct dfa with
  | case1 stack visited =>
      have hstack : stack = [] := List.length_eq_zero_iff.mp (by omega)
      rw [hstack, visit]
      exact ⟨List.Subset.refl _, List.nil_subset _, fun state hstate hnew => absurd hstate hnew⟩
  | case2 bound visited =>
      rw [visit]
      exact ⟨List.Subset.refl _, List.nil_subset _, fun state hstate hnew => absurd hstate hnew⟩
  | case3 bound state stack visited hknown ih =>
      rw [List.length_cons] at hbound
      obtain ⟨hvisited, hstack, hclosed⟩ := ih (by omega)
      rw [visit, if_pos hknown]
      have hstate := hvisited (List.contains_iff_mem.mp hknown)
      exact ⟨hvisited, List.cons_subset.mpr ⟨hstate, hstack⟩, hclosed⟩
  | case4 bound state stack visited hknown visited' successors ih =>
      have hnew : state ∉ visited := fun h => hknown (List.contains_iff_mem.mpr h)
      have hpaid : dfa.pendingTransitions visited = dfa.pendingTransitions visited' + _ :=
        pendingTransitions_append hnew
      have hkeys := length_keys_outgoing_le dfa state
      have hsuccessors : successors.length ≤ (dfa.outgoing state).keys.length :=
        List.length_filter_le _ _
      rw [List.length_cons] at hbound
      have hlength : (successors ++ stack).length = successors.length + stack.length :=
        List.length_append
      obtain ⟨hvisited', hstack', hclosed⟩ := ih (by omega)
      rw [visit, if_neg hknown]
      obtain ⟨hvisited, hstate⟩ := List.append_subset.mp hvisited'
      obtain ⟨hsuccessors, hstack⟩ := List.append_subset.mp hstack'
      refine ⟨hvisited, List.cons_subset.mpr ⟨hstate (by simp), hstack⟩, ?_⟩
      intro last hlast hunknown
      by_cases hsame : last = state
      · intro next hnext
        by_cases hseen : next ∈ visited'
        · exact hvisited' hseen
        · refine hsuccessors (List.mem_filter.mpr ⟨hsame ▸ hnext, ?_⟩)
          simpa using hseen
      · refine hclosed last hlast fun h => ?_
        rcases List.mem_append.mp h with h | h
        · exact hunknown h
        · exact hsame (List.mem_singleton.mp h)

theorem start_mem_discoveryOrder (dfa : Dfa) : dfa.start ∈ dfa.discoveryOrder := by
  refine (visit_complete _ _ _ ?_).2.1 (by simp)
  rw [pendingTransitions_nil, List.length_singleton]
  omega

/-- The targets of the edges of a found state are found. -/
theorem mem_discoveryOrder_of_outgoing (hp : p ∈ dfa.discoveryOrder)
    (hedge : ((dfa.outgoing p).get? q).isSome) : q ∈ dfa.discoveryOrder := by
  obtain ⟨r, hr⟩ := Option.isSome_iff_exists.mp hedge
  refine (visit_complete _ _ _ ?_).2.2 p hp (by simp) (OrderedMap.mem_keys_of_get? hr)
  rw [pendingTransitions_nil, List.length_singleton]
  omega

end Dfa

end GrammarAnalysis

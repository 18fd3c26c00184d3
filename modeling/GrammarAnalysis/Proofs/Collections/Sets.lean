import Mathlib.Data.List.Perm.Subperm
import GrammarAnalysis.Collections.NatSet
import GrammarAnalysis.Lookahead.TerminalSet

/-!
# Sizes of finite sets

A union is either the first set again or larger than it, which is why the
iterations that only ever unite sets come to an end.
-/

namespace GrammarAnalysis

namespace NatSet

theorem nodup_toList (s : NatSet) : s.toList.Nodup :=
  s.ascending.imp fun h => Nat.ne_of_lt h

/-- A set that is covered by a list is no larger than the list. -/
theorem size_le_length {s : NatSet} {ns : List Nat} (h : ∀ n, n ∈ s → n ∈ ns) :
    s.size ≤ ns.length :=
  (List.subperm_of_subset s.nodup_toList fun n hn => h n hn).length_le

theorem eq_of_subset_of_size_le {s t : NatSet} (h : ∀ n, n ∈ s → n ∈ t)
    (hsize : t.size ≤ s.size) : s = t := by
  have hperm := (List.subperm_of_subset s.nodup_toList fun n hn => h n hn).perm_of_length_le hsize
  exact ext fun n => hperm.mem_iff

theorem union_eq_self_or_size_lt (s t : NatSet) : s ∪ t = s ∨ s.size < (s ∪ t).size := by
  by_cases h : (s ∪ t).size ≤ s.size
  · left
    have hsub : ∀ n, n ∈ s → n ∈ s ∪ t := fun n hn => mem_union.mpr (Or.inl hn)
    exact (eq_of_subset_of_size_le hsub h).symm
  · right
    omega

theorem isEmpty_eq_false_iff {s : NatSet} : s.isEmpty = false ↔ ∃ n, n ∈ s := by
  rw [isEmpty, List.isEmpty_eq_false_iff_exists_mem]
  rfl

end NatSet

namespace TerminalSet

@[simp] theorem terminals_empty : (∅ : TerminalSet).terminals = ∅ := rfl

@[simp] theorem epsilon_empty : (∅ : TerminalSet).epsilon = false := rfl

@[simp] theorem terminals_union (s t : TerminalSet) :
    (s ∪ t).terminals = s.terminals ∪ t.terminals := rfl

@[simp] theorem epsilon_union (s t : TerminalSet) :
    (s ∪ t).epsilon = (s.epsilon || t.epsilon) := rfl

/-- The number of terminals, with the marker counted as one more. -/
def weight (s : TerminalSet) : Nat := s.terminals.size + s.epsilon.toNat

theorem union_eq_self_or_weight_lt (s t : TerminalSet) :
    s ∪ t = s ∨ s.weight < (s ∪ t).weight := by
  obtain ⟨ss, se⟩ := s
  obtain ⟨ts, te⟩ := t
  have hunion : (⟨ss, se⟩ ∪ ⟨ts, te⟩ : TerminalSet) = ⟨ss ∪ ts, se || te⟩ := rfl
  rw [hunion]
  simp only [weight, TerminalSet.mk.injEq]
  rcases NatSet.union_eq_self_or_size_lt ss ts with h | h
  · cases se <;> cases te <;> simp [h]
  · right
    cases se <;> cases te <;> simp <;> omega

end TerminalSet

end GrammarAnalysis

import GrammarAnalysis.Automaton.Path
import GrammarAnalysis.Proofs.Automaton.Subsets

/-!
# Automata recognize the words of their paths

An automaton follows all its paths at once: the set of states after a word
consists of the ends of the paths that read the word.  The epsilon closure needs no
bound on the states for this, because it meets no other states than the given
ones and the ends of epsilon edges.
-/

namespace GrammarAnalysis

namespace Nfa

variable {nfa : Nfa} {n m last : Nat} {t : TerminalId} {word : List TerminalId} {states : NatSet}

/-- The targets of the transitions of a state on a terminal. -/
def targets (nfa : Nfa) (state : Nat) (t : TerminalId) : NatSet :=
  (nfa.transitions.get? (state, t)).getD ∅

/-! ## Epsilon edges -/

/-- The ends of all epsilon edges. -/
def epsilonEnds (nfa : Nfa) : List Nat := nfa.epsilons.values.flatMap NatSet.toList

theorem length_epsilonEnds (nfa : Nfa) : nfa.epsilonEnds.length = nfa.epsilonCount :=
  length_flatMap_eq_totalBy _ _

theorem mem_epsilonEnds_of_mem (h : m ∈ nfa.epsilonTargets n) : m ∈ nfa.epsilonEnds := by
  rw [epsilonTargets] at h
  cases htargets : nfa.epsilons.get? n with
  | none => simp [htargets] at h
  | some targets =>
      rw [htargets] at h
      exact List.mem_flatMap.mpr ⟨targets, OrderedMap.mem_values_of_get? htargets, h⟩

/-- Whether a state is a seed or the end of an epsilon edge. -/
def IsSeedOrEnd (nfa : Nfa) (seeds : List Nat) (n : Nat) : Prop := n ∈ seeds ++ nfa.epsilonEnds

theorem isSeedOrEnd_of_leads {seeds : List Nat} (h : Leads nfa.epsilonTargets id n m) :
    nfa.IsSeedOrEnd seeds m :=
  List.mem_append_right _ (mem_epsilonEnds_of_mem h)

/-- There are no more of them than the bound of the closure. -/
theorem atMost_isSeedOrEnd (nfa : Nfa) (seeds : List Nat) :
    AtMost (seeds.length + nfa.epsilonCount + 1) (nfa.IsSeedOrEnd seeds) := by
  refine atMost_of_mem (fun _ hk => hk) ?_
  rw [List.length_append, length_epsilonEnds]
  omega

/-- The epsilon closure consists of the states that epsilon edges lead to. -/
theorem mem_epsilonClosure_iff {seeds : List Nat} :
    n ∈ nfa.epsilonClosure seeds ↔
      ∃ r ∈ seeds, Relation.ReflTransGen (fun k j => j ∈ nfa.epsilonTargets k) r n := by
  rw [epsilonClosure, NatSet.mem_ofList]
  exact mem_explore_iff (P := nfa.IsSeedOrEnd seeds) (fun _ hr => List.mem_append_left _ hr)
    (fun _ _ _ => isSeedOrEnd_of_leads) (nfa.atMost_isSeedOrEnd seeds)

/-- The loop of the epsilon closure ends. -/
theorem collects_epsilonClosure (nfa : Nfa) (seeds : List Nat) :
    Collects nfa.epsilonTargets seeds (nfa.epsilonClosure seeds) :=
  ⟨_, explores_explore (P := nfa.IsSeedOrEnd seeds) (fun _ hr => List.mem_append_left _ hr)
    (fun _ _ _ => isSeedOrEnd_of_leads) (nfa.atMost_isSeedOrEnd seeds), rfl⟩

theorem mem_moveBy_iff : n ∈ nfa.moveBy states t ↔ ∃ k ∈ states, n ∈ nfa.targets k t := by
  simp [moveBy, targets]

theorem mem_advance_iff :
    n ∈ nfa.advance states t ↔ ∃ k ∈ states, ∃ j ∈ nfa.targets k t,
      Relation.ReflTransGen (fun k j => j ∈ nfa.epsilonTargets k) j n := by
  rw [advance, mem_epsilonClosure_iff]
  simp only [NatSet.mem_toList, mem_moveBy_iff]
  constructor
  · rintro ⟨j, ⟨k, hk, hj⟩, hreach⟩
    exact ⟨k, hk, j, hj, hreach⟩
  · rintro ⟨k, hk, j, hj, hreach⟩
    exact ⟨j, ⟨k, hk, hj⟩, hreach⟩

/-! ## Paths -/

theorem path_of_reflTransGen
    (h : Relation.ReflTransGen (fun k j => j ∈ nfa.epsilonTargets k) n m)
    (hpath : nfa.Path m word last) : nfa.Path n word last := by
  induction h using Relation.ReflTransGen.head_induction_on with
  | refl => exact hpath
  | head hedge _ ih => exact Path.epsilon hedge ih

theorem exists_path_of_mem_foldl (h : last ∈ word.foldl nfa.advance states) :
    ∃ n ∈ states, nfa.Path n word last := by
  induction word generalizing states with
  | nil => exact ⟨last, h, Path.refl last⟩
  | cons t word ih =>
      obtain ⟨m, hm, hpath⟩ := ih h
      obtain ⟨n, hn, j, hj, hreach⟩ := mem_advance_iff.mp hm
      exact ⟨n, hn, Path.read hj (path_of_reflTransGen hreach hpath)⟩

/-- Whether the epsilon edges of the states stay among the states. -/
def IsEpsilonClosed (nfa : Nfa) (states : NatSet) : Prop :=
  ∀ n ∈ states, ∀ m ∈ nfa.epsilonTargets n, m ∈ states

theorem isEpsilonClosed_epsilonClosure (seeds : List Nat) :
    nfa.IsEpsilonClosed (nfa.epsilonClosure seeds) := by
  intro n hn m hm
  obtain ⟨r, hr, hreach⟩ := mem_epsilonClosure_iff.mp hn
  exact mem_epsilonClosure_iff.mpr ⟨r, hr, hreach.tail hm⟩

/-- The sets of states follow a path: its edges never leave them. -/
theorem Path.mem_foldl (hpath : nfa.Path n word last) (hclosed : nfa.IsEpsilonClosed states)
    (hn : n ∈ states) : last ∈ word.foldl nfa.advance states := by
  induction hpath generalizing states with
  | refl => exact hn
  | epsilon edge _ ih => exact ih hclosed (hclosed _ hn _ edge)
  | read edge _ ih =>
      apply ih (isEpsilonClosed_epsilonClosure _)
      exact mem_advance_iff.mpr ⟨_, hn, _, edge, Relation.ReflTransGen.refl⟩

theorem start_mem_startStates (nfa : Nfa) : nfa.start ∈ nfa.startStates :=
  mem_epsilonClosure_iff.mpr ⟨nfa.start, by simp, Relation.ReflTransGen.refl⟩

/-- The states after a word are the ends of the paths that read it. -/
theorem mem_foldl_advance_iff :
    last ∈ word.foldl nfa.advance nfa.startStates ↔ nfa.Path nfa.start word last := by
  constructor
  · intro h
    obtain ⟨n, hn, hpath⟩ := exists_path_of_mem_foldl h
    obtain ⟨r, hr, hreach⟩ := mem_epsilonClosure_iff.mp hn
    rw [List.mem_singleton.mp hr] at hreach
    exact path_of_reflTransGen hreach hpath
  · intro hpath
    exact hpath.mem_foldl (isEpsilonClosed_epsilonClosure _) nfa.start_mem_startStates

theorem anyFinal_iff : nfa.anyFinal states = true ↔ ∃ n ∈ nfa.finals, n ∈ states := by
  simp [anyFinal, and_comm]

/-- An automaton recognizes the words of the paths from its start to a final state. -/
theorem recognizes_iff_hasWord : nfa.recognizes word = true ↔ nfa.HasWord word := by
  rw [recognizes, anyFinal_iff, HasWord]
  refine exists_congr fun last => ?_
  rw [mem_foldl_advance_iff]

end Nfa

end GrammarAnalysis

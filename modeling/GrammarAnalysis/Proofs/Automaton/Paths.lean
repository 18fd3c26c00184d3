import GrammarAnalysis.Automaton.Path
import GrammarAnalysis.Proofs.Automaton.Subsets

/-!
# Sets of states follow the paths

The set of states after a word consists of the ends of the paths that read it,
so an automaton recognizes a word if and only if a path to a final state reads it.
-/

namespace GrammarAnalysis.StateGraph

variable {σ τ : Type} [DecidableEq σ] {graph : StateGraph σ τ} {n m last : NodeId} {symbol : σ}
  {word : List σ}

theorem path_of_reflTransGen (h : Relation.ReflTransGen (fun k j => j ∈ graph.epsilons k) n m)
    (hpath : graph.Path m word last) : graph.Path n word last := by
  induction h using Relation.ReflTransGen.head_induction_on with
  | refl => exact hpath
  | head hedge _ ih => exact Path.epsilon hedge ih

/-- A path that reads nothing goes along epsilon edges. -/
theorem path_nil_iff :
    graph.Path n [] last ↔ Relation.ReflTransGen (fun k j => j ∈ graph.epsilons k) n last := by
  constructor
  · intro hpath
    generalize hword : ([] : List σ) = word at hpath
    induction hpath with
    | refl => exact Relation.ReflTransGen.refl
    | epsilon edge _ ih => exact (ih hword).head edge
    | read => contradiction
  · intro h
    exact path_of_reflTransGen h (Path.refl last)

/-- A path that reads a symbol first goes along epsilon edges, then along an edge
with this symbol. -/
theorem path_cons_iff :
    graph.Path n (symbol :: word) last ↔ ∃ k,
      Relation.ReflTransGen (fun k j => j ∈ graph.epsilons k) n k ∧
        ∃ m ∈ graph.targets k symbol, graph.Path m word last := by
  constructor
  · intro hpath
    generalize hread : symbol :: word = read at hpath
    induction hpath with
    | refl => contradiction
    | epsilon edge _ ih =>
        obtain ⟨k, hreach, htarget⟩ := ih hread
        exact ⟨k, hreach.head edge, htarget⟩
    | read edge rest =>
        obtain ⟨rfl, rfl⟩ := List.cons.inj hread
        exact ⟨_, Relation.ReflTransGen.refl, _, edge, rest⟩
  · rintro ⟨k, hreach, m, htarget, hpath⟩
    exact path_of_reflTransGen hreach (Path.read htarget hpath)

/-- The states after a word are the ends of the paths that read it. -/
theorem mem_foldl_advance_iff (h : graph.IsBounded) {seeds : List NodeId}
    (hseeds : ∀ n ∈ seeds, n < graph.size) :
    last ∈ word.foldl graph.advance (graph.epsilonClosure seeds) ↔
      ∃ n ∈ seeds, graph.Path n word last := by
  induction word generalizing seeds with
  | nil =>
      rw [List.foldl_nil, mem_epsilonClosure_iff h hseeds]
      simp only [path_nil_iff]
  | cons symbol word ih =>
      rw [List.foldl_cons, advance, ih fun m hm => has_moveBy h _ _ m (NatSet.mem_toList.mp hm)]
      simp only [NatSet.mem_toList, mem_moveBy_iff, mem_epsilonClosure_iff h hseeds, path_cons_iff]
      constructor
      · rintro ⟨m, ⟨k, ⟨n, hn, hreach⟩, htarget⟩, hpath⟩
        exact ⟨n, hn, k, hreach, m, htarget, hpath⟩
      · rintro ⟨n, hn, k, hreach, m, htarget, hpath⟩
        exact ⟨m, ⟨k, ⟨n, hn, hreach⟩, htarget⟩, hpath⟩

/-- An automaton recognizes the words of the paths from the root to a final state. -/
theorem recognizes_iff_hasWord (h : graph.IsBounded) :
    graph.recognizes word = true ↔ graph.HasWord word := by
  have hroot : ∀ n ∈ [root], n < graph.size := fun n hn => by
    rw [List.mem_singleton.mp hn]
    exact h.root_lt
  rw [recognizes, anyFinal, List.any_eq_true, HasWord]
  refine exists_congr fun last => ?_
  rw [NatSet.mem_toList, startStates, mem_foldl_advance_iff h hroot]
  simp only [List.mem_singleton, exists_eq_left, and_comm]

/-- Whether recognition comes to an end for every word: the closures of the start states and of
the states behind each symbol do. -/
structure RecognitionEnds (graph : StateGraph σ τ) : Prop where
  start : Collects graph.epsilons [root] graph.startStates
  advance : ∀ states symbol, Collects graph.epsilons (graph.moveBy states symbol).toList
    (graph.advance states symbol)

theorem IsBounded.recognitionEnds (h : graph.IsBounded) : graph.RecognitionEnds where
  start := collects_epsilonClosure h fun n hn => by
    rw [List.mem_singleton.mp hn]
    exact h.root_lt
  advance states symbol := collects_epsilonClosure h fun n hn =>
    has_moveBy h states symbol n (NatSet.mem_toList.mp hn)

end GrammarAnalysis.StateGraph

import GrammarAnalysis.Automaton.StateGraph

/-!
# Subset construction

The states of the deterministic graph are the sets of states in which the given
graph can be after reading a word.  They are numbered in order of discovery and
tagged with the sets they stand for.
-/

namespace GrammarAnalysis.StateGraph

variable {σ τ : Type} [DecidableEq σ]

/-- The symbols on the edges of the states, in order of first occurrence. -/
def symbolsOf (graph : StateGraph σ τ) (states : NatSet) : List σ :=
  distinct (states.toList.flatMap graph.symbols)

/-- The nonempty sets that follow a set of states, by symbol. -/
def expandSubset (graph : StateGraph σ τ) (states : NatSet) : List (σ × NatSet) :=
  ((graph.symbolsOf states).map fun symbol => (symbol, graph.advance states symbol)).filter
    fun entry => !entry.2.isEmpty

/-- The subsets found by the construction, with what follows them, in order of
discovery.  There are no more subsets than `2 ^ n` for `n` states. -/
def subsets (graph : StateGraph σ τ) : List (NatSet × List (σ × NatSet)) :=
  explore graph.expandSubset (fun followers => followers.map Prod.snd)
    (Nat.pow 2 (graph.size + 1) + 1) [graph.startStates]

/-- The deterministic graph of the subsets. -/
def determinize (graph : StateGraph σ τ) : StateGraph σ NatSet :=
  let subsets := graph.subsets
  let keys := subsets.map Prod.fst
  let nodes := subsets.map fun (subset, followers) =>
    { edges := OrderedMap.ofList (followers.map fun entry => (entry.1, [keys.idxOf entry.2]))
      epsilons := []
      isFinal := graph.anyFinal subset
      tag := subset }
  ⟨nodes.toArray⟩

end GrammarAnalysis.StateGraph

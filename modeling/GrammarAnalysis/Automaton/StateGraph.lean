import GrammarAnalysis.Collections.NatSet
import GrammarAnalysis.Collections.OrderedMap
import GrammarAnalysis.Iteration.Exploration

/-!
# Automata as graphs of tagged states

A state graph has numbered states, of which state 0 is the root.  A state has
labelled edges, listed by symbol in the order in which they were added, epsilon
edges, a final flag and a tag.  Sets of states are ascending lists of numbers.
-/

namespace GrammarAnalysis

abbrev NodeId := Nat

/-- A state of a graph. -/
structure Node (σ τ : Type) where
  /-- The targets of each symbol, without repetitions. -/
  edges : OrderedMap σ (List NodeId)
  /-- The targets of the epsilon edges, without repetitions. -/
  epsilons : List NodeId
  isFinal : Bool
  tag : τ

/-- An automaton with symbols `σ` whose states carry tags `τ`. -/
structure StateGraph (σ τ : Type) where
  nodes : Array (Node σ τ)

/-- The list with `x` at the end, unless it is there already. -/
def addOnce {α : Type} [DecidableEq α] (x : α) (xs : List α) : List α :=
  if x ∈ xs then xs else xs ++ [x]

namespace StateGraph

variable {σ τ : Type} [DecidableEq σ]

/-- The number of states. -/
def size (graph : StateGraph σ τ) : Nat := graph.nodes.size

/-- Adds a state without edges and returns its number. -/
def addNode (graph : StateGraph σ τ) (tag : τ) (isFinal : Bool) : NodeId × StateGraph σ τ :=
  (graph.size, ⟨graph.nodes.push ⟨∅, [], isFinal, tag⟩⟩)

/-- The graph that consists of its root. -/
def ofRoot (tag : τ) (isFinal : Bool) : StateGraph σ τ := ⟨#[⟨∅, [], isFinal, tag⟩]⟩

/-- Adds an edge. -/
def addEdge (graph : StateGraph σ τ) (source : NodeId) (symbol : σ) (target : NodeId) :
    StateGraph σ τ :=
  ⟨graph.nodes.modify source fun node =>
    { node with edges := node.edges.upsert symbol fun targets => addOnce target (targets.getD []) }⟩

/-- Adds an epsilon edge. -/
def addEpsilon (graph : StateGraph σ τ) (source target : NodeId) : StateGraph σ τ :=
  ⟨graph.nodes.modify source fun node =>
    { node with epsilons := addOnce target node.epsilons }⟩

/-- Sets the final flag of a state. -/
def setFinal (graph : StateGraph σ τ) (n : NodeId) (isFinal : Bool) : StateGraph σ τ :=
  ⟨graph.nodes.modify n fun node => { node with isFinal := isFinal }⟩

/-- The number of the root. -/
def root : NodeId := 0

/-- The targets of the edges with the given symbol. -/
def targets (graph : StateGraph σ τ) (n : NodeId) (symbol : σ) : List NodeId :=
  (graph.nodes[n]?.bind fun node => node.edges.get? symbol).getD []

/-- The targets of the epsilon edges. -/
def epsilons (graph : StateGraph σ τ) (n : NodeId) : List NodeId :=
  (graph.nodes[n]?.map Node.epsilons).getD []

/-- The symbols on the edges of a state, in order. -/
def symbols (graph : StateGraph σ τ) (n : NodeId) : List σ :=
  (graph.nodes[n]?.map fun node => node.edges.keys).getD []

/-- Whether a state is final. -/
def isFinal (graph : StateGraph σ τ) (n : NodeId) : Bool :=
  (graph.nodes[n]?.map Node.isFinal).getD false

/-- Whether no state has an epsilon edge or two edges with the same symbol. -/
def isDeterministic (graph : StateGraph σ τ) : Bool :=
  graph.nodes.toList.all fun node =>
    node.epsilons.isEmpty && node.edges.values.all fun targets => targets.length ≤ 1

/-- The states reached from the given ones through epsilon edges, these included. -/
def epsilonClosure (graph : StateGraph σ τ) (seeds : List NodeId) : NatSet :=
  NatSet.ofList (reachable graph.epsilons (seeds.length + graph.size + 1) seeds)

/-- The states reached from the given ones through one edge with the symbol. -/
def moveBy (graph : StateGraph σ τ) (states : NatSet) (symbol : σ) : NatSet :=
  NatSet.ofList (states.toList.flatMap fun n => graph.targets n symbol)

/-- Whether one of the states is final. -/
def anyFinal (graph : StateGraph σ τ) (states : NatSet) : Bool :=
  states.toList.any graph.isFinal

/-- The states after reading a symbol: one edge, then epsilon edges. -/
def advance (graph : StateGraph σ τ) (states : NatSet) (symbol : σ) : NatSet :=
  graph.epsilonClosure (graph.moveBy states symbol).toList

/-- The states before anything is read. -/
def startStates (graph : StateGraph σ τ) : NatSet := graph.epsilonClosure [root]

/-- Whether the word leads from the root to a final state. -/
def recognizes (graph : StateGraph σ τ) (word : List σ) : Bool :=
  graph.anyFinal (word.foldl graph.advance graph.startStates)

end StateGraph

end GrammarAnalysis

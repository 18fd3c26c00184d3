import GrammarAnalysis.Automaton.StateGraph
import GrammarAnalysis.Regex.Basic

/-!
# The automaton of a regular expression

Each expression becomes a part of the graph with an entry and an exit; epsilon
edges join the parts.  An expression matches the words that lead from the entry
of its graph to the exit.
-/

namespace GrammarAnalysis.Regex

/-- A graph whose states carry no tags. -/
abbrev Graph := StateGraph TerminalId Unit

/-- The entry and the exit of a part of a graph. -/
structure Gate where
  entry : NodeId
  exit : NodeId

mutual

/-- Adds the states of an expression to the graph, the entry and the exit first. -/
def build (graph : Graph) : Regex → Gate × Graph
  | epsilon =>
    let (entry, graph) := graph.addNode () false
    let (exit, graph) := graph.addNode () false
    (⟨entry, exit⟩, graph.addEpsilon entry exit)
  | symbol t =>
    let (entry, graph) := graph.addNode () false
    let (exit, graph) := graph.addNode () false
    (⟨entry, exit⟩, graph.addEdge entry t exit)
  | concat parts =>
    let (entry, graph) := graph.addNode () false
    let (exit, graph) := graph.addNode () false
    let (last, graph) := buildChain graph entry parts
    (⟨entry, exit⟩, graph.addEpsilon last exit)
  | union alternatives =>
    let (entry, graph) := graph.addNode () false
    let (exit, graph) := graph.addNode () false
    (⟨entry, exit⟩, buildBranches graph ⟨entry, exit⟩ alternatives)
  | star inner =>
    let (entry, graph) := graph.addNode () false
    let (exit, graph) := graph.addNode () false
    let (part, graph) := build graph inner
    let graph := graph.addEpsilon entry part.entry
    let graph := graph.addEpsilon entry exit
    let graph := graph.addEpsilon part.exit part.entry
    (⟨entry, exit⟩, graph.addEpsilon part.exit exit)

/-- Adds the parts of a concatenation one after the other, starting at `last`,
and returns the exit of the last one. -/
def buildChain (graph : Graph) (last : NodeId) : List Regex → NodeId × Graph
  | [] => (last, graph)
  | r :: rs =>
    let (part, graph) := build graph r
    buildChain (graph.addEpsilon last part.entry) part.exit rs

/-- Adds the alternatives of a union between the given entry and exit. -/
def buildBranches (graph : Graph) (gate : Gate) : List Regex → Graph
  | [] => graph
  | r :: rs =>
    let (part, graph) := build graph r
    let graph := graph.addEpsilon gate.entry part.entry
    buildBranches (graph.addEpsilon part.exit gate.exit) gate rs

end

/-- The automaton of an expression. -/
def toGraph (r : Regex) : Graph :=
  let (part, graph) := build (.ofRoot () false) r
  (graph.addEpsilon StateGraph.root part.entry).setFinal part.exit true

/-- Whether the word matches the expression. -/
def isMatch (r : Regex) (word : List TerminalId) : Bool := r.toGraph.recognizes word

end GrammarAnalysis.Regex

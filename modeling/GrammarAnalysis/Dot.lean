import GrammarAnalysis.Automaton.StateGraph
import GrammarAnalysis.Item.Printer
import GrammarAnalysis.Regex.Elimination
import GrammarAnalysis.Regex.Printer
import GrammarAnalysis.ShiftReduce.Table

/-!
# Automata as DOT graphs

Every automaton of the library can be drawn: its states are boxes, final states
are bold with a double border, and a point marks the start.  Labels stand in
quotes, so quotes and backslashes in them are escaped, and a newline becomes the
mark for a left-justified line.
-/

namespace GrammarAnalysis

/-- A node of a drawing. -/
structure DotNode where
  id : Nat
  label : String
  isFinal : Bool
deriving DecidableEq, Repr

/-- An edge of a drawing. -/
structure DotEdge where
  source : Nat
  target : Nat
  label : String
deriving DecidableEq, Repr

/-- A drawing of an automaton. -/
structure DotGraph where
  nodes : List DotNode
  edges : List DotEdge
  start : Nat
deriving DecidableEq, Repr

namespace DotGraph

/-- A character of a label as it is written between quotes. -/
def escapeChar : Char → List Char
  | '"' => ['\\', '"']
  | '\\' => ['\\', '\\']
  | '\n' => ['\\', 'l']
  | c => [c]

/-- A label in quotes. -/
def quoted (label : String) : String :=
  "\"" ++ String.ofList (label.toList.flatMap escapeChar) ++ "\""

/-- The attributes of a final node. -/
def finalStyle : String := ", style=bold, peripheries=2"

/-- The line of a node. -/
def nodeLine (node : DotNode) : String :=
  "  n" ++ toString node.id ++ " [label=" ++ quoted node.label ++
    (if node.isFinal then finalStyle else "") ++ "];\n"

/-- The line of an edge. -/
def edgeLine (edge : DotEdge) : String :=
  "  n" ++ toString edge.source ++ " -> n" ++ toString edge.target ++ " [label=" ++
    quoted edge.label ++ "];\n"

/-- The lines in front of the nodes. -/
def header : String :=
  "digraph automaton \x7b\n  rankdir=LR;\n  node [shape=box];\n  start [shape=point];\n"

/-- The drawing in the DOT language. -/
def text (graph : DotGraph) : String :=
  header ++ String.join (graph.nodes.map nodeLine) ++
    "  start -> n" ++ toString graph.start ++ " [style=dashed];\n" ++
    String.join (graph.edges.map edgeLine) ++ "\x7d\n"

/-- The drawing of a shift-reduce automaton.  Nodes are labelled with their
number and their items; the states that accept are final. -/
def ofParseTable? (table : ParseTable) : Option DotGraph := do
  let g := table.grammar
  let nodes ← (table.states.zip table.rows).zipIdx.mapM fun ((state, row), id) => do
    let items ← g.entryTexts? state.items
    return {
      id := id
      label := "\n".intercalate (toString id :: items)
      isFinal := row.actions.values.any fun slot => slot.values.contains .accept }
  let edges ← table.states.zipIdx.mapM fun (state, id) =>
    state.transitions.entries.mapM fun entry => do
      let name ← g.name? entry.1
      return { source := id, target := entry.2, label := name }
  return ⟨nodes, edges.flatten, 0⟩

/-- The drawing of a deterministic automaton.  Parallel transitions are drawn as
one edge, labelled with their expression. -/
def ofDfa? (name? : TerminalId → Option String) (dfa : Dfa) : Option DotGraph := do
  let states := List.range dfa.states
  let edges ← states.mapM fun source =>
    (dfa.outgoing source).entries.mapM fun entry => do
      let label ← entry.2.text? name?
      return { source := source, target := entry.1, label := label }
  let nodes := states.map fun id =>
    { id := id, label := toString id, isFinal := id ∈ dfa.finals }
  return ⟨nodes, edges.flatten, dfa.start⟩

/-- The edges of a state of a graph, the epsilon edges last. -/
def edgesOf {σ τ : Type} (symbolText : σ → String) (node : Node σ τ) (id : NodeId) :
    List DotEdge :=
  (node.edges.entries.flatMap fun entry => entry.2.map fun target =>
    { source := id, target := target, label := symbolText entry.1 }) ++
  node.epsilons.map fun target =>
    { source := id, target := target, label := Regex.emptyWordText }

/-- The drawing of a state graph, given the texts of its symbols and tags. -/
def ofStateGraph {σ τ : Type} (symbolText : σ → String) (tagText : τ → String)
    (graph : StateGraph σ τ) : DotGraph :=
  let nodes := graph.nodes.toList.zipIdx
  { nodes := nodes.map fun (node, id) =>
      { id := id, label := tagText node.tag, isFinal := node.isFinal }
    edges := nodes.flatMap fun (node, id) => edgesOf symbolText node id
    start := StateGraph.root }

/-- The drawing of the item automaton of an augmented grammar. -/
def ofItemAutomaton? (g : Grammar) : Option DotGraph := do
  let graph := g.itemAutomaton
  graph.nodes.toList.forM fun node => do
    let _ ← g.itemText? node.tag
    node.edges.keys.forM fun symbol => do
      let _ ← g.name? symbol
  return ofStateGraph (fun symbol => (g.name? symbol).getD "")
    (fun item => (g.itemText? item).getD "") graph

end DotGraph

end GrammarAnalysis

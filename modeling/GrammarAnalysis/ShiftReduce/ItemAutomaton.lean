import GrammarAnalysis.Automaton.Determinization
import GrammarAnalysis.Item.Basic
import GrammarAnalysis.ShiftReduce.State

/-!
# The automaton of items without lookaheads

The items are the states of an automaton that reads the symbols they expect;
epsilon edges lead from an item that expects a nonterminal to the initial items
of its rules.  The subset construction yields the LR(0) states.
-/

namespace GrammarAnalysis

namespace ItemAutomaton

/-- The edges of an item: over the expected symbol, and without a symbol. -/
structure Edges where
  onward : Option (Symbol × Item)
  initials : List Item

/-- The targets of the edges, the one over the symbol first. -/
def Edges.targets (edges : Edges) : List Item :=
  (edges.onward.map Prod.snd).toList ++ edges.initials

/-- The edges of an item. -/
def expand (g : Grammar) (item : Item) : Edges :=
  match g.next? item with
  | none => ⟨none, []⟩
  | some (.terminal t) => ⟨some (.terminal t, item.advance), []⟩
  | some (.nonterminal n) => ⟨some (.nonterminal n, item.advance), g.initialItems n⟩

/-- The items with their edges, in order of discovery. -/
def items (g : Grammar) : List (Item × Edges) :=
  explore (expand g) Edges.targets (g.itemCount + 2) [Item.initial acceptRule]

end ItemAutomaton

namespace Grammar

/-- The automaton of the items of an augmented grammar.  All its states are final. -/
def itemAutomaton (g : Grammar) : StateGraph Symbol Item :=
  let items := ItemAutomaton.items g
  let keys := items.map Prod.fst
  let nodes := items.map fun (item, edges) =>
    { edges := OrderedMap.ofList
        (edges.onward.toList.map fun entry => (entry.1, [keys.idxOf entry.2]))
      epsilons := edges.initials.map keys.idxOf
      isFinal := true
      tag := item }
  ⟨nodes.toArray⟩

/-- The LR(0) states of an augmented grammar, as sets of items without lookaheads. -/
def lr0States (g : Grammar) : List ParserState :=
  let nfa := g.itemAutomaton
  nfa.determinize.nodes.toList.map fun node =>
    { items := ItemSet.ofList (node.tag.toList.filterMap fun n =>
        nfa.nodes[n]?.map fun member => (member.tag, (∅ : NatSet)))
      transitions := OrderedMap.ofList (node.edges.entries.filterMap fun entry =>
        entry.2.head?.map fun target => (entry.1, target)) }

end Grammar

end GrammarAnalysis

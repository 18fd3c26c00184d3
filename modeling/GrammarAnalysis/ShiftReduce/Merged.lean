import GrammarAnalysis.ShiftReduce.Canonical

/-!
# Merging canonical states

States whose items are the same up to the lookaheads form a class.  Each class
becomes one state with the united lookaheads.  Classes are numbered in the
order in which their first states were discovered.
-/

namespace GrammarAnalysis.CanonicalAutomaton

/-- The classes of states, each given by its items without lookaheads. -/
def classes (automaton : CanonicalAutomaton) : List (List Item) :=
  distinct (automaton.states.map fun state => state.items.cores)

/-- Adds the items and the transitions of a state to those of its class. -/
def mergeInto (representatives : List StateId) (merged : ParserState) (state : CanonicalState) :
    ParserState where
  items := merged.items ∪ state.items
  transitions := state.transitions.entries.foldl
    (fun transitions entry =>
      transitions.insert entry.1 ((representatives[entry.2]?).getD 0))
    merged.transitions

/-- The merged states. -/
def mergeCores (automaton : CanonicalAutomaton) : List ParserState :=
  let classes := automaton.classes
  let representatives := automaton.states.map fun state => classes.idxOf state.items.cores
  classes.map fun cores =>
    (automaton.states.filter fun state => state.items.cores = cores).foldl
      (mergeInto representatives) ⟨∅, ∅⟩

end GrammarAnalysis.CanonicalAutomaton

import GrammarAnalysis.Item.Closure
import GrammarAnalysis.ShiftReduce.State

/-!
# The canonical LR(1) automaton

The states are closed sets of items with lookaheads, told apart by the items
they were created from.  They are numbered in order of discovery, starting from
the item of the reserved rule with the end of input as its lookahead.
-/

namespace GrammarAnalysis

/-- A state of the canonical automaton. -/
structure CanonicalState where
  /-- The items the state was created from. -/
  kernel : ItemSet
  /-- The closure of the kernel. -/
  items : ItemSet
  transitions : OrderedMap Symbol StateId
deriving DecidableEq

/-- The canonical automaton of an augmented grammar. -/
structure CanonicalAutomaton where
  states : List CanonicalState
deriving DecidableEq

namespace CanonicalAutomaton

/-- What is known of a kernel once it is expanded: its closure, and the kernels
that follow by symbol. -/
structure Expansion where
  items : ItemSet
  followers : List (Symbol × ItemSet)

/-- The kernel of the first state. -/
def startKernel : ItemSet :=
  ItemSet.ofList [(Item.initial acceptRule, NatSet.singleton endOfInput)]

/-- Expands a kernel. -/
def expand (g : Grammar) (first : FirstSets) (kernel : ItemSet) : Expansion :=
  let items := g.closure first kernel
  ⟨items, g.transitions items⟩

/-- A number that the kernels do not exceed: each of them gives every item one
of the sets of terminals, or leaves it out. -/
def kernelBound (g : Grammar) : Nat :=
  Nat.pow 2 ((g.terminals.size + 2) * (g.itemCount + 2)) + 1

/-- The kernels with their expansions, in order of discovery. -/
def kernels (g : Grammar) (first : FirstSets) : List (ItemSet × Expansion) :=
  explore (expand g first) (fun expansion => expansion.followers.map Prod.snd) (kernelBound g)
    [startKernel]

/-- The canonical automaton of an augmented grammar. -/
def ofGrammar (g : Grammar) (first : FirstSets) : CanonicalAutomaton :=
  let kernels := kernels g first
  let keys := kernels.map Prod.fst
  ⟨kernels.map fun (kernel, expansion) =>
    { kernel := kernel
      items := expansion.items
      transitions := OrderedMap.ofList
        (expansion.followers.map fun entry => (entry.1, keys.idxOf entry.2)) }⟩

/-- The states without their kernels. -/
def parserStates (automaton : CanonicalAutomaton) : List ParserState :=
  automaton.states.map fun state => ⟨state.items, state.transitions⟩

end CanonicalAutomaton

end GrammarAnalysis

import GrammarAnalysis.Automaton.Dfa
import GrammarAnalysis.Collections.Total
import GrammarAnalysis.Iteration.Exploration

/-!
# Nondeterministic automata over terminals

States are arbitrary numbers, and there may be epsilon edges.  The subset
construction turns such an automaton into a deterministic one, whose states are
the reachable nonempty sets of states, numbered in order of discovery.
-/

namespace GrammarAnalysis

/-- A nondeterministic automaton with epsilon edges. -/
structure Nfa where
  states : Nat
  start : Nat
  finals : NatSet
  transitions : OrderedMap (Nat × TerminalId) NatSet
  epsilons : OrderedMap Nat NatSet

namespace Nfa

/-- The automaton without edges and without final states. -/
def empty (states start : Nat) : Nfa := ⟨states, start, ∅, ∅, ∅⟩

/-- Adds a transition. -/
def addTransition (nfa : Nfa) (edge : Transition) : Nfa :=
  { nfa with
    transitions := nfa.transitions.upsert (edge.source, edge.terminal) fun targets =>
      (targets.getD ∅).insert edge.target }

/-- Adds an epsilon edge. -/
def addEpsilon (nfa : Nfa) (source target : Nat) : Nfa :=
  { nfa with
    epsilons := nfa.epsilons.upsert source fun targets => (targets.getD ∅).insert target }

/-- Makes a state final. -/
def setFinal (nfa : Nfa) (state : Nat) : Nfa := { nfa with finals := nfa.finals.insert state }

/-- The terminals on the transitions, in the order of first use. -/
def vocabulary (nfa : Nfa) : List TerminalId := distinct (nfa.transitions.keys.map Prod.snd)

/-- The targets of the epsilon edges of a state. -/
def epsilonTargets (nfa : Nfa) (state : Nat) : List Nat :=
  ((nfa.epsilons.get? state).getD ∅).toList

/-- The number of epsilon edges. -/
def epsilonCount (nfa : Nfa) : Nat := totalBy NatSet.size nfa.epsilons.values

/-- The number of transitions. -/
def transitionCount (nfa : Nfa) : Nat := totalBy NatSet.size nfa.transitions.values

/-- The states reached from the given ones through epsilon edges, these included. -/
def epsilonClosure (nfa : Nfa) (seeds : List Nat) : NatSet :=
  NatSet.ofList (reachable nfa.epsilonTargets (seeds.length + nfa.epsilonCount + 1) seeds)

/-- The states reached from the given ones through one transition on the terminal. -/
def moveBy (nfa : Nfa) (states : NatSet) (t : TerminalId) : NatSet :=
  NatSet.ofList (states.toList.flatMap fun state =>
    ((nfa.transitions.get? (state, t)).getD ∅).toList)

/-- The states after reading a terminal: one transition, then epsilon edges. -/
def advance (nfa : Nfa) (states : NatSet) (t : TerminalId) : NatSet :=
  nfa.epsilonClosure (nfa.moveBy states t).toList

/-- The states before anything is read. -/
def startStates (nfa : Nfa) : NatSet := nfa.epsilonClosure [nfa.start]

/-- Whether one of the states is final. -/
def anyFinal (nfa : Nfa) (states : NatSet) : Bool :=
  states.toList.any fun state => state ∈ nfa.finals

/-- Whether the word leads from the start to a final state. -/
def recognizes (nfa : Nfa) (word : List TerminalId) : Bool :=
  nfa.anyFinal (word.foldl nfa.advance nfa.startStates)

/-- The nonempty sets that follow a set of states, by terminal. -/
def expandSubset (nfa : Nfa) (states : NatSet) : List (TerminalId × NatSet) :=
  (nfa.vocabulary.map fun t => (t, nfa.advance states t)).filter fun entry => !entry.2.isEmpty

/-- The subsets found by the construction, with what follows them, in order of
discovery.  All their members are the start or the target of an edge. -/
def subsets (nfa : Nfa) : List (NatSet × List (TerminalId × NatSet)) :=
  explore nfa.expandSubset (fun followers => followers.map Prod.snd)
    (Nat.pow 2 (nfa.epsilonCount + nfa.transitionCount + 1) + 1) [nfa.startStates]

/-- The deterministic automaton of the subsets. -/
def toDfa (nfa : Nfa) : Except AutomatonError Dfa :=
  let subsets := nfa.subsets
  let keys := subsets.map Prod.fst
  let finals := (subsets.zipIdx.filter fun entry => nfa.anyFinal entry.1.1).map Prod.snd
  let transitions := subsets.zipIdx.flatMap fun ((_, followers), source) =>
    followers.map fun (t, target) => (⟨source, t, keys.idxOf target⟩ : Transition)
  Dfa.ofTransitions subsets.length 0 finals transitions

end Nfa

end GrammarAnalysis

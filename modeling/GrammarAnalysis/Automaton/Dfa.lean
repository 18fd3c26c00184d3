import GrammarAnalysis.Collections.NatSet
import GrammarAnalysis.Regex.Basic
import GrammarAnalysis.Collections.OrderedMap

/-!
# Deterministic automata over terminals

States are the numbers below a count.  A list of transitions makes an automaton
if all states are in range and no state has two targets on one terminal.
Parallel transitions between two states are also seen as one edge, labelled
with the union of their terminals.
-/

namespace GrammarAnalysis

/-- The reason why an automaton cannot be built. -/
inductive AutomatonError where
  /-- The state has two targets on the terminal. -/
  | nondeterministic (state : Nat) (t : TerminalId)
  /-- The state is not below the number of states. -/
  | stateOutOfRange (state states : Nat)
  /-- The rules of the grammar do not have the form of a regular grammar. -/
  | notRegular
  /-- A rule of the grammar mentions a nonterminal that is not declared. -/
  | undeclaredNonterminal (n : NonterminalId)
deriving DecidableEq, Repr

namespace AutomatonError

/-- The message shown to the user. -/
def message : AutomatonError → String
  | nondeterministic state t =>
    "invalid DFA: state " ++ toString state ++ " has more than one transition on terminal #" ++
      toString t
  | stateOutOfRange state states =>
    "invalid DFA: state " ++ toString state ++ " is out of range (the automaton has " ++
      toString states ++ " states)"
  | notRegular => "the grammar is not regular"
  | undeclaredNonterminal n => "the nonterminal #" ++ toString n ++ " is not declared"

end AutomatonError

/-- A transition on a terminal. -/
structure Transition where
  source : Nat
  terminal : TerminalId
  target : Nat
deriving DecidableEq, Repr

/-- A deterministic automaton over terminals. -/
structure Dfa where
  states : Nat
  start : Nat
  finals : NatSet
  transitions : OrderedMap (Nat × TerminalId) Nat

/-- Edges by the state at their other end. -/
abbrev Adjacency := OrderedMap Nat Regex

namespace Adjacency

/-- The adjacency with one more alternative on an edge. -/
def join (adjacency : Adjacency) (state : Nat) (label : Regex) : Adjacency :=
  adjacency.upsert state fun
    | some existing => existing.either label
    | none => label

end Adjacency

namespace Dfa

/-- Fails if the state is not below the number of states. -/
def checkState (states state : Nat) : Except AutomatonError Unit :=
  if state < states then .ok () else .error (.stateOutOfRange state states)

/-- Adds a transition.  A repeated transition changes nothing. -/
def addTransition (dfa : Dfa) (edge : Transition) : Except AutomatonError Dfa := do
  checkState dfa.states edge.source
  checkState dfa.states edge.target
  match dfa.transitions.get? (edge.source, edge.terminal) with
  | some target =>
    if target = edge.target then .ok dfa
    else .error (.nondeterministic edge.source edge.terminal)
  | none =>
    .ok { dfa with
      transitions := dfa.transitions.insert (edge.source, edge.terminal) edge.target }

/-- The automaton with the given states and transitions.  The start is checked
first, then the final states, then the transitions, each in order. -/
def ofTransitions (states start : Nat) (finals : List Nat) (transitions : List Transition) :
    Except AutomatonError Dfa := do
  checkState states start
  finals.forM (checkState states)
  transitions.foldlM addTransition ⟨states, start, NatSet.ofList finals, ∅⟩

/-- The target of a state on a terminal. -/
def transition? (dfa : Dfa) (state : Nat) (t : TerminalId) : Option Nat :=
  dfa.transitions.get? (state, t)

/-- The labels of the edges that leave a state, by target. -/
def outgoing (dfa : Dfa) (state : Nat) : Adjacency :=
  dfa.transitions.entries.foldl
    (fun edges entry =>
      if entry.1.1 = state then Adjacency.join edges entry.2 (.symbol entry.1.2) else edges)
    ∅

/-- The labels of the edges that enter a state, by source. -/
def incoming (dfa : Dfa) (state : Nat) : Adjacency :=
  dfa.transitions.entries.foldl
    (fun edges entry =>
      if entry.2 = state then Adjacency.join edges entry.1.1 (.symbol entry.1.2) else edges)
    ∅

/-- The state reached from another one by reading a word. -/
def read? (dfa : Dfa) : Nat → List TerminalId → Option Nat
  | state, [] => some state
  | state, t :: word => (dfa.transition? state t).bind fun next => dfa.read? next word

/-- Whether the word leads from the start to a final state. -/
def recognizes (dfa : Dfa) (word : List TerminalId) : Bool :=
  match dfa.read? dfa.start word with
  | some state => state ∈ dfa.finals
  | none => false

end Dfa

end GrammarAnalysis

import GrammarAnalysis.Automaton.Dfa

/-!
# The regular expression of a deterministic automaton

For each final state, all states but the start and the final one are removed in
turn, while the labels of the paths through them move to the remaining edges.
What is left has at most two states and is read off.  The expression of the
automaton is the union over its final states.
-/

namespace GrammarAnalysis

/-- Labelled edges, kept from both ends. -/
structure EdgeTable where
  incoming : List Adjacency
  outgoing : List Adjacency

namespace EdgeTable

/-- The edges of an automaton. -/
def ofDfa (dfa : Dfa) : EdgeTable :=
  ⟨(List.range dfa.states).map dfa.incoming, (List.range dfa.states).map dfa.outgoing⟩

/-- The edges that enter a state. -/
def into (edges : EdgeTable) (state : Nat) : Adjacency := (edges.incoming[state]?).getD ∅

/-- The edges that leave a state. -/
def out (edges : EdgeTable) (state : Nat) : Adjacency := (edges.outgoing[state]?).getD ∅

/-- The label of an edge. -/
def label? (edges : EdgeTable) (source target : Nat) : Option Regex :=
  (edges.out source).get? target

/-- Adds an alternative to the label of an edge. -/
def connect (edges : EdgeTable) (source target : Nat) (label : Regex) : EdgeTable :=
  let merged :=
    match edges.label? source target with
    | some existing => existing.either label
    | none => label
  { incoming := edges.incoming.modify target (·.insert source merged)
    outgoing := edges.outgoing.modify source (·.insert target merged) }

/-- Adds the paths from each predecessor to each successor, with the loop in between. -/
def reroute (edges : EdgeTable) (loop : Option Regex)
    (predecessors successors : List (Nat × Regex)) : EdgeTable :=
  predecessors.foldl
    (fun edges source =>
      successors.foldl
        (fun edges target =>
          edges.connect source.1 target.1
            (.concatAll (source.2 :: (loop.toList ++ [target.2]))))
        edges)
    edges

/-- Removes every edge of a state. -/
def detach (edges : EdgeTable) (state : Nat) (predecessors successors : List (Nat × Regex)) :
    EdgeTable :=
  let outgoing := predecessors.foldl
    (fun outgoing entry => outgoing.modify entry.1 (·.erase state)) edges.outgoing
  let incoming := successors.foldl
    (fun incoming entry => incoming.modify entry.1 (·.erase state)) edges.incoming
  ⟨incoming.modify state fun _ => ∅, outgoing.modify state fun _ => ∅⟩

/-- Removes a state.  The paths through it, any number of times around its loop,
become edges between its neighbours. -/
def eliminate (edges : EdgeTable) (state : Nat) : EdgeTable :=
  let loop := (edges.label? state state).map Regex.repeated
  let predecessors := (edges.into state).entries.filter fun entry => entry.1 ≠ state
  let successors := (edges.out state).entries.filter fun entry => entry.1 ≠ state
  (edges.reroute loop predecessors successors).detach state predecessors successors

end EdgeTable

namespace Dfa

/-- Visits the states on the stack in depth-first order, in at most `bound` steps. -/
def visit (dfa : Dfa) : Nat → List Nat → List Nat → List Nat
  | 0, _, visited => visited
  | _ + 1, [], visited => visited
  | bound + 1, state :: stack, visited =>
    if visited.contains state then dfa.visit bound stack visited
    else
      let visited := visited ++ [state]
      let successors := (dfa.outgoing state).keys.filter fun next => !visited.contains next
      dfa.visit bound (successors ++ stack) visited

/-- The reachable states in depth-first order from the start. -/
def discoveryOrder (dfa : Dfa) : List Nat :=
  dfa.visit (dfa.transitions.size + 2) [dfa.start] []

/-- The expression of the words that lead from the start to the given state. -/
def regexTo (dfa : Dfa) (order : List Nat) (target : Nat) : Option Regex :=
  let others := order.filter fun state => state ≠ dfa.start && state ≠ target
  let edges := others.foldl EdgeTable.eliminate (EdgeTable.ofDfa dfa)
  let startLoop := edges.label? dfa.start dfa.start
  if dfa.start = target then
    some ((startLoop.map Regex.repeated).getD .epsilon)
  else
    match edges.label? dfa.start target with
    | none => none
    | some forth =>
      let targetLoop := (edges.label? target target).map Regex.repeated
      let around := (edges.label? target dfa.start).map fun back =>
        Regex.concatAll (forth :: (targetLoop.toList ++ [back]))
      let cycle :=
        match startLoop, around with
        | some loop, some around => some (loop.either around)
        | some loop, none => some loop
        | none, around => around
      some (.concatAll ((cycle.map Regex.repeated).toList ++ forth :: targetLoop.toList))

/-- The expression of the language of an automaton, if it is not empty. -/
def toRegex? (dfa : Dfa) : Option Regex :=
  let order := dfa.discoveryOrder
  dfa.finals.toList.foldl
    (fun found target =>
      match dfa.regexTo order target with
      | none => found
      | some regex =>
        match found with
        | some other => some (other.either regex)
        | none => some regex)
    none

end Dfa

end GrammarAnalysis

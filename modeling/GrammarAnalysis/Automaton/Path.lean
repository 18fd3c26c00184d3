import GrammarAnalysis.Automaton.Nfa
import GrammarAnalysis.Automaton.StateGraph

/-!
# Paths through automata

A path reads a word: each edge on it reads one symbol, and epsilon edges read
nothing.  Paths say what an automaton recognizes without sets of states.
-/

namespace GrammarAnalysis

/-- The paths of an automaton over terminals, by their ends and the word they read. -/
inductive Nfa.Path (nfa : Nfa) : Nat → List TerminalId → Nat → Prop
  | refl (state : Nat) : Path nfa state [] state
  | epsilon {state middle last : Nat} {word : List TerminalId}
      (edge : middle ∈ nfa.epsilonTargets state) (rest : Path nfa middle word last) :
      Path nfa state word last
  | read {state middle last : Nat} {t : TerminalId} {word : List TerminalId}
      (edge : middle ∈ (nfa.transitions.get? (state, t)).getD ∅)
      (rest : Path nfa middle word last) : Path nfa state (t :: word) last

/-- Whether some path from the start to a final state reads the word. -/
def Nfa.HasWord (nfa : Nfa) (word : List TerminalId) : Prop :=
  ∃ state ∈ nfa.finals, nfa.Path nfa.start word state

/-- The paths of a state graph, by their ends and the word they read. -/
inductive StateGraph.Path {σ τ : Type} [DecidableEq σ] (graph : StateGraph σ τ) :
    NodeId → List σ → NodeId → Prop
  | refl (n : NodeId) : Path graph n [] n
  | epsilon {n middle last : NodeId} {word : List σ} (edge : middle ∈ graph.epsilons n)
      (rest : Path graph middle word last) : Path graph n word last
  | read {n middle last : NodeId} {symbol : σ} {word : List σ}
      (edge : middle ∈ graph.targets n symbol) (rest : Path graph middle word last) :
      Path graph n (symbol :: word) last

/-- Whether some path from the root to a final state reads the word. -/
def StateGraph.HasWord {σ τ : Type} [DecidableEq σ] (graph : StateGraph σ τ) (word : List σ) :
    Prop :=
  ∃ n, graph.isFinal n = true ∧ graph.Path root word n

theorem Nfa.Path.trans {nfa : Nfa} {state middle last : Nat} {word more : List TerminalId}
    (h : nfa.Path state word middle) (h' : nfa.Path middle more last) :
    nfa.Path state (word ++ more) last := by
  induction h with
  | refl => exact h'
  | epsilon edge _ ih => exact .epsilon edge (ih h')
  | read edge _ ih => exact .read edge (ih h')

theorem StateGraph.Path.trans {σ τ : Type} [DecidableEq σ] {graph : StateGraph σ τ}
    {n middle last : NodeId} {word more : List σ} (h : graph.Path n word middle)
    (h' : graph.Path middle more last) : graph.Path n (word ++ more) last := by
  induction h with
  | refl => exact h'
  | epsilon edge _ ih => exact .epsilon edge (ih h')
  | read edge _ ih => exact .read edge (ih h')

end GrammarAnalysis

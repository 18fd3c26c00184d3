import GrammarAnalysis.Automaton.Nfa
import GrammarAnalysis.Grammar.Basic

/-!
# Regular grammars and their automata

In a regular grammar every rule has the form `A -> a`, `A -> a B` or
`S -> epsilon`, and the start symbol `S` occurs in no body if it derives the
empty word.  The nonterminals are the states of an automaton for its language.
-/

namespace GrammarAnalysis

/-- The form of a rule of a regular grammar. -/
inductive RegularForm where
  /-- The head derives the empty word. -/
  | empty
  /-- The head derives a terminal. -/
  | last (t : TerminalId)
  /-- The head derives a terminal, and a nonterminal goes on. -/
  | onward (t : TerminalId) (n : NonterminalId)
deriving DecidableEq, Repr

namespace RegularForm

/-- The form of a body, if it has one. -/
def ofBody? : List Symbol → Option RegularForm
  | [] => some .empty
  | [.terminal t] => some (.last t)
  | [.terminal t, .nonterminal n] => some (.onward t n)
  | _ => none

end RegularForm

/-- The automata of a regular grammar. -/
structure RegularAutomaton where
  nfa : Nfa
  dfa : Dfa
  /-- The nonterminal of each state of the nondeterministic automaton.  The
  extra final state has none. -/
  states : List (Option NonterminalId)

namespace Grammar

/-- Whether a rule may occur in a regular grammar: only the start symbol may
derive the empty word. -/
def isRegularRule (g : Grammar) (rule : Rule) : Bool :=
  match RegularForm.ofBody? rule.body with
  | some .empty => rule.head = g.start
  | some _ => true
  | none => false

/-- Whether the grammar is regular. -/
def isRegular (g : Grammar) : Bool :=
  g.rules.values.all g.isRegularRule &&
    !(g.rules.values.any (fun rule => rule.body.isEmpty) &&
      g.rules.values.any fun rule => rule.body[1]? = some (.nonterminal g.start))

/-- The nonterminals in the order of their states: the start symbol first. -/
def stateOrder (g : Grammar) : List NonterminalId :=
  g.start :: g.nonterminals.keys.filter (· ≠ g.start)

/-- The state of a nonterminal. -/
def stateOf (g : Grammar) (n : NonterminalId) : Except AutomatonError Nat :=
  match g.stateOrder.idxOf? n with
  | some state => .ok state
  | none => .error (.undeclaredNonterminal n)

/-- The extra final state, where a derivation ends with a terminal. -/
def acceptingState (g : Grammar) : Nat := g.stateOrder.length

/-- Adds the transition of a rule. -/
def addRegularRule (g : Grammar) (nfa : Nfa) (rule : Rule) : Except AutomatonError Nfa := do
  let source ← g.stateOf rule.head
  match RegularForm.ofBody? rule.body with
  | some .empty => return nfa.setFinal source
  | some (.last t) =>
    return (nfa.addTransition ⟨source, t, g.acceptingState⟩).setFinal g.acceptingState
  | some (.onward t n) =>
    let target ← g.stateOf n
    return nfa.addTransition ⟨source, t, target⟩
  | none => throw .notRegular

/-- The nonterminals of all states, with the extra final state if some rule needs it. -/
def regularStates (g : Grammar) : List (Option NonterminalId) :=
  g.stateOrder.map some ++
    if g.rules.values.any (fun rule => rule.body.length = 1) then [none] else []

/-- The automata of a regular grammar. -/
def regularAutomaton (g : Grammar) : Except AutomatonError RegularAutomaton := do
  if g.isRegular then
    let states := g.regularStates
    let nfa ← g.rules.values.foldlM g.addRegularRule (Nfa.empty states.length 0)
    let dfa ← nfa.toDfa
    return ⟨nfa, dfa, states⟩
  else throw .notRegular

end Grammar

end GrammarAnalysis

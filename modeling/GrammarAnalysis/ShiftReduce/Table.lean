import GrammarAnalysis.Grammar.Augmented
import GrammarAnalysis.Lookahead.Follow
import GrammarAnalysis.ShiftReduce.ItemAutomaton
import GrammarAnalysis.ShiftReduce.Merged
import GrammarAnalysis.Table.Slot

/-!
# Shift-reduce tables

Each state has a row of actions by lookahead and a row of gotos by nonterminal.
An item that expects a terminal calls for a shift, a complete item for a
reduction on its lookaheads, and the complete item of the reserved rule for
acceptance at the end of input.  The three kinds of tables differ in their
states and in the lookaheads of complete items.
-/

namespace GrammarAnalysis

/-- What to do in a state on a lookahead. -/
inductive Action where
  /-- Read the lookahead and go to the state. -/
  | shift (state : StateId)
  /-- Replace the body of the rule by its head. -/
  | reduce (rule : RuleId)
  | accept
deriving DecidableEq, Repr

/-- The kinds of shift-reduce tables. -/
inductive TableKind where
  | slr1
  | lr1
  | lalr1
deriving DecidableEq, Repr

namespace TableKind

/-- The name of the construction. -/
def name : TableKind → String
  | slr1 => "SLR(1)"
  | lr1 => "LR(1)"
  | lalr1 => "LALR(1)"

end TableKind

/-- The cells of one state. -/
structure TableRow where
  actions : Cells TerminalId Action
  gotos : Cells NonterminalId StateId
deriving DecidableEq

/-- A shift-reduce table for an augmented grammar. -/
structure ParseTable where
  kind : TableKind
  grammar : Grammar
  states : List ParserState
  rows : List TableRow

namespace ParseTable

/-- The lookaheads on which a complete item is reduced: what follows the head of
its rule if FOLLOW sets are given, and else its own lookaheads. -/
def reduceLookaheads (g : Grammar) (follow : Option FollowSets) (item : Item) (own : NatSet) :
    List TerminalId :=
  match follow with
  | none => own.toList
  | some follow =>
    match g.rules.get? item.rule with
    | some rule => ((follow.get? rule.head).getD ∅).toList
    | none => []

/-- The actions that an item calls for. -/
def actionsOf (g : Grammar) (follow : Option FollowSets) (state : ParserState)
    (entry : Item × NatSet) : List (TerminalId × Action) :=
  match g.next? entry.1 with
  | some (.terminal t) =>
    (state.transitions.get? (.terminal t)).toList.map fun target => (t, .shift target)
  | some (.nonterminal _) => []
  | none =>
    if entry.1.rule = acceptRule then [(endOfInput, .accept)]
    else
      (reduceLookaheads g follow entry.1 entry.2).map fun t => (t, .reduce entry.1.rule)

/-- The gotos that an item calls for. -/
def gotosOf (g : Grammar) (state : ParserState) (entry : Item × NatSet) :
    List (NonterminalId × StateId) :=
  match g.next? entry.1 with
  | some (.nonterminal n) =>
    (state.transitions.get? (.nonterminal n)).toList.map fun target => (n, target)
  | _ => []

/-- The row of a state. -/
def rowOf (g : Grammar) (follow : Option FollowSets) (state : ParserState) : TableRow where
  actions := Cells.ofRegistrations (state.items.entries.flatMap (actionsOf g follow state))
  gotos := Cells.ofRegistrations (state.items.entries.flatMap (gotosOf g state))

/-- The table with the given states. -/
def ofStates (kind : TableKind) (g : Grammar) (states : List ParserState)
    (follow : Option FollowSets) : ParseTable :=
  ⟨kind, g, states, states.map (rowOf g follow)⟩

/-- The SLR(1) table of an augmented grammar. -/
def slr1 (g : Grammar) : ParseTable :=
  let first := FirstSets.ofGrammar g
  ofStates .slr1 g g.lr0States (some (FollowSets.ofGrammar g first))

/-- The LR(1) table of an augmented grammar with its canonical automaton. -/
def lr1 (g : Grammar) (automaton : CanonicalAutomaton) : ParseTable :=
  ofStates .lr1 g automaton.parserStates none

/-- The LALR(1) table of an augmented grammar with its canonical automaton. -/
def lalr1 (g : Grammar) (automaton : CanonicalAutomaton) : ParseTable :=
  ofStates .lalr1 g automaton.mergeCores none

end ParseTable

namespace Grammar

/-- The augmented grammar, if it has the reserved rule.  A grammar whose start
symbol is the reserved one may lack it. -/
def withAcceptRule? (g : Grammar) : Option Grammar := do
  let augmented ← g.augmented?
  if augmented.rules.contains acceptRule then some augmented else none

/-- The canonical automaton of an augmented grammar. -/
def canonicalAutomaton (g : Grammar) : CanonicalAutomaton :=
  CanonicalAutomaton.ofGrammar g (FirstSets.ofGrammar g)

/-- The shift-reduce table of the given kind, for any grammar that can be augmented. -/
def parseTable? (g : Grammar) (kind : TableKind) : Option ParseTable :=
  g.withAcceptRule?.map fun augmented =>
    match kind with
    | .slr1 => .slr1 augmented
    | .lr1 => .lr1 augmented augmented.canonicalAutomaton
    | .lalr1 => .lalr1 augmented augmented.canonicalAutomaton

end Grammar

namespace ParseTable

/-- The row of a state; there are no cells for a state that does not exist. -/
def row (table : ParseTable) (state : StateId) : TableRow :=
  (table.rows[state]?).getD ⟨∅, ∅⟩

/-- The action in a state on a lookahead; the first one in a conflicting cell. -/
def action? (table : ParseTable) (state : StateId) (t : TerminalId) : Option Action :=
  ((table.row state).actions.slot t).first?

/-- The state after a nonterminal has been recognized in a state. -/
def goto? (table : ParseTable) (state : StateId) (n : NonterminalId) : Option StateId :=
  ((table.row state).gotos.slot n).first?

/-- The action cells, state by state, in the order of registration. -/
def actions (table : ParseTable) : List (StateId × TerminalId × Slot Action) :=
  table.rows.zipIdx.flatMap fun (row, state) =>
    row.actions.entries.map fun (t, slot) => (state, t, slot)

/-- The goto cells, state by state, in the order of registration. -/
def gotos (table : ParseTable) : List (StateId × NonterminalId × Slot StateId) :=
  table.rows.zipIdx.flatMap fun (row, state) =>
    row.gotos.entries.map fun (n, slot) => (state, n, slot)

/-- The action cells with more than one entry. -/
def conflicts (table : ParseTable) : List (StateId × TerminalId × Slot Action) :=
  table.actions.filter fun (_, _, slot) => slot.isConflict

/-- Whether no cell holds two entries. -/
def isDeterministic (table : ParseTable) : Bool :=
  table.rows.all fun row =>
    row.actions.values.all (fun slot => !slot.isConflict) &&
      row.gotos.values.all fun slot => !slot.isConflict

end ParseTable

end GrammarAnalysis

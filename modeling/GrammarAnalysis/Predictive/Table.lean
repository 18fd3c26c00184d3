import GrammarAnalysis.Lookahead.Follow
import GrammarAnalysis.Table.Slot

/-!
# The predictive table

The cell of a nonterminal and a lookahead holds the rules that can be applied
there: a rule is registered for the terminals that start its body and, if the
body derives the empty sentence, for those that follow its head.  Filling stops
at the first cell that receives a second rule.
-/

namespace GrammarAnalysis

/-- The cells of a predictive table. -/
abbrev PredictiveCells := Cells (NonterminalId × TerminalId) RuleId

/-- The first cell that received two rules. -/
structure PredictiveConflict where
  nonterminal : NonterminalId
  lookahead : TerminalId
  /-- The rule that was registered first. -/
  first : RuleId
  /-- The rule that collided with it. -/
  second : RuleId
  /-- A sentential form with the nonterminal in it. -/
  context : List Symbol
deriving DecidableEq, Repr

/-- A predictive table, filled completely or up to the first conflict. -/
structure PredictiveTable where
  grammar : Grammar
  cells : PredictiveCells
  conflict : Option PredictiveConflict

namespace PredictiveTable

/-- The lookaheads on which a rule is predicted, in the order of registration. -/
def lookaheads (first : FirstSets) (follow : FollowSets) (rule : Rule) : List TerminalId :=
  let starts := first.ofSentence rule.body
  starts.terminals.toList ++
    if starts.epsilon then ((follow.get? rule.head).getD ∅).toList else []

/-- The registrations of all rules, in order. -/
def registrations (g : Grammar) (first : FirstSets) (follow : FollowSets) :
    List ((NonterminalId × TerminalId) × RuleId) :=
  g.rules.entries.flatMap fun entry =>
    (lookaheads first follow entry.2).map fun t => ((entry.2.head, t), entry.1)

/-- Registers in turn, up to the first registration that puts a second rule
into its cell, which is returned. -/
def fill (cells : PredictiveCells) :
    List ((NonterminalId × TerminalId) × RuleId) →
      PredictiveCells × Option ((NonterminalId × TerminalId) × RuleId)
  | [] => (cells, none)
  | (key, id) :: rest =>
    let cells := Cells.register cells key id
    if (cells.slot key).isConflict then (cells, some (key, id)) else fill cells rest

/-- The first registered rule with an unvisited head whose body mentions `n`,
with the parts of the body around the first mention. -/
def parent? (g : Grammar) (cells : PredictiveCells) (visited : List NonterminalId)
    (n : NonterminalId) : Option (NonterminalId × List Symbol × List Symbol) :=
  cells.values.findSome? fun slot => do
    let id ← slot.first?
    let rule ← g.rules.get? id
    if visited.contains rule.head then none
    else
      let i ← rule.body.idxOf? (.nonterminal n)
      return (rule.head, rule.body.take i, rule.body.drop (i + 1))

/-- Expands a sentential form upwards from `n` until it belongs to the start
symbol or no rule mentions `n`, in at most `bound` steps. -/
def contextFrom (g : Grammar) (cells : PredictiveCells) :
    Nat → List NonterminalId → NonterminalId → List Symbol → List Symbol
  | 0, _, _, form => form
  | bound + 1, visited, n, form =>
    if n = g.start then form
    else
      match parent? g cells visited n with
      | none => form
      | some (head, before, after) =>
        contextFrom g cells bound (head :: visited) head (before ++ form ++ after)

/-- A sentential form that contains `n`.  Every step visits another head, so
there are no more steps than rules. -/
def context (g : Grammar) (cells : PredictiveCells) (n : NonterminalId) : List Symbol :=
  contextFrom g cells (g.rules.size + 1) [n] n [.nonterminal n]

/-- The predictive table of a grammar, from its FIRST and FOLLOW sets. -/
def ofSets (g : Grammar) (first : FirstSets) (follow : FollowSets) : PredictiveTable :=
  let (cells, collision) := fill ∅ (registrations g first follow)
  let conflict := collision.map fun ((n, t), second) =>
    { nonterminal := n
      lookahead := t
      first := ((cells.slot (n, t)).first?).getD second
      second := second
      context := context g cells n }
  ⟨g, cells, conflict⟩

/-- The predictive table of a grammar. -/
def ofGrammar (g : Grammar) : PredictiveTable :=
  let first := FirstSets.ofGrammar g
  ofSets g first (FollowSets.ofGrammar g first)

/-- Whether no cell received two rules. -/
def isLL1 (table : PredictiveTable) : Bool := table.conflict.isNone

/-- The rule predicted for a nonterminal on a lookahead; the first one in a
conflicting cell. -/
def rule? (table : PredictiveTable) (n : NonterminalId) (t : TerminalId) : Option RuleId :=
  (table.cells.slot (n, t)).first?

end PredictiveTable

end GrammarAnalysis

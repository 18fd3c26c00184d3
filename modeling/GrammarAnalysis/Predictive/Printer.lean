import GrammarAnalysis.Grammar.Printer
import GrammarAnalysis.Predictive.Table

/-!
# Printing predictive tables

One line per cell with its rules, and a last line for the conflict.
-/

namespace GrammarAnalysis

namespace PredictiveConflict

/-- The conflict in one sentence. -/
def text? (g : Grammar) (conflict : PredictiveConflict) : Option String := do
  let nonterminal ← g.nonterminals.get? conflict.nonterminal
  let lookahead ← g.terminals.get? conflict.lookahead
  let first ← g.ruleTextOf? conflict.first
  let second ← g.ruleTextOf? conflict.second
  let context ← g.sentenceText? conflict.context
  return "conflict at (" ++ nonterminal ++ ", " ++ lookahead ++ ") between `" ++ first ++
    "' and `" ++ second ++ "', in `" ++ context ++ "'"

end PredictiveConflict

namespace PredictiveTable

/-- The line of a cell. -/
def cellText? (g : Grammar) (key : NonterminalId × TerminalId) (slot : Slot RuleId) :
    Option String := do
  let nonterminal ← g.nonterminals.get? key.1
  let lookahead ← g.terminals.get? key.2
  let rules ← slot.values.mapM g.ruleTextOf?
  return "- (" ++ nonterminal ++ ", " ++ lookahead ++ ") => " ++ " | ".intercalate rules ++ "\n"

/-- The cells of the table in the order of registration, then the conflict. -/
def text? (table : PredictiveTable) : Option String := do
  let cells ← table.cells.entries.mapM fun entry => cellText? table.grammar entry.1 entry.2
  let conflict ←
    match table.conflict with
    | none => some ""
    | some conflict => (conflict.text? table.grammar).map (· ++ "\n")
  return String.join cells ++ conflict

end PredictiveTable

end GrammarAnalysis

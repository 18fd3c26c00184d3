import GrammarAnalysis.Grammar.Printer
import GrammarAnalysis.Item.Printer
import GrammarAnalysis.ShiftReduce.Table

/-!
# Printing automata and tables

States are numbered with at least three digits.  The canonical automaton is
printed with its kernels marked by stars; a table is printed state by state with
its items, actions and gotos.
-/

namespace GrammarAnalysis

/-- A number with at least three digits. -/
def threeDigits (n : Nat) : String :=
  let digits := toString n
  String.ofList (List.replicate (3 - digits.length) '0') ++ digits

/-- The text of a state number. -/
def stateText (state : StateId) : String := "S#" ++ threeDigits state

namespace CanonicalAutomaton

/-- The lines of a state: its items and its transitions. -/
def stateLines? (g : Grammar) (id : StateId) (state : CanonicalState) : Option String := do
  let items ← state.items.entries.mapM fun entry => do
    let text ← g.entryText? entry
    let mark := if state.kernel.cores.contains entry.1 then "*" else "-"
    return mark ++ " " ++ text ++ "\n"
  let transitions ← state.transitions.entries.mapM fun entry => do
    let name ← g.name? entry.1
    return "  " ++ name ++ " => " ++ stateText entry.2 ++ "\n"
  return "#### State " ++ stateText id ++ "\n" ++ String.join items ++ String.join transitions

/-- The states, separated by empty lines. -/
def text? (g : Grammar) (automaton : CanonicalAutomaton) : Option String := do
  let states ← automaton.states.zipIdx.mapM fun (state, id) => stateLines? g id state
  return "\n".intercalate states

end CanonicalAutomaton

namespace Action

/-- The text of an action. -/
def text? (g : Grammar) : Action → Option String
  | shift state => some ("shift(" ++ stateText state ++ ")")
  | reduce id => (g.ruleTextOf? id).map fun text => "reduce(" ++ text ++ ")"
  | accept => some "accept"

end Action

namespace ParseTable

/-- The line of an action cell. -/
def actionLine? (g : Grammar) (entry : TerminalId × Slot Action) : Option String := do
  let lookahead ← g.terminals.get? entry.1
  let actions ← entry.2.values.mapM (Action.text? g)
  let mark := if entry.2.isConflict then "  (conflict)" else ""
  return "- " ++ lookahead ++ " => " ++ " | ".intercalate actions ++ mark ++ "\n"

/-- The line of a goto cell. -/
def gotoLine? (g : Grammar) (entry : NonterminalId × Slot StateId) : Option String := do
  let name ← g.nonterminals.get? entry.1
  let states := entry.2.values.map fun state => "goto(" ++ stateText state ++ ")"
  return "- " ++ name ++ " => " ++ " | ".intercalate states ++ "\n"

/-- The lines of a state: its items, actions and gotos. -/
def stateLines? (g : Grammar) (id : StateId) (state : ParserState) (row : TableRow) :
    Option String := do
  let items ← g.itemsText? state.items
  let actions ← row.actions.entries.mapM (actionLine? g)
  let gotos ← row.gotos.entries.mapM (gotoLine? g)
  return "#### State " ++ stateText id ++ "\n## items\n" ++ items ++ "## actions\n" ++
    String.join actions ++ "## gotos\n" ++ String.join gotos

/-- The states, separated by empty lines. -/
def text? (table : ParseTable) : Option String := do
  let states ← (table.states.zip table.rows).zipIdx.mapM fun ((state, row), id) =>
    stateLines? table.grammar id state row
  return "\n".intercalate states

end ParseTable

end GrammarAnalysis

import GrammarAnalysis.Analysis.Basic
import GrammarAnalysis.Grammar.Printer
import GrammarAnalysis.Predictive.Printer
import GrammarAnalysis.Regex.Printer

/-!
# The report of an analysis

The report has a section for the grammar, its FIRST and FOLLOW sets, the
parsing tables, the regular grammar and the normal forms.  Stages that were not
run are left out.  There is no report of normal forms that ran out of numbers.
-/

namespace GrammarAnalysis.Analysis

/-- A line with the name of a nonterminal and a set. -/
def setLine? (g : Grammar) (n : NonterminalId) (set : TerminalSet) : Option String := do
  let name ← g.nonterminals.get? n
  let text ← set.text? g.terminals.get?
  return "- " ++ name ++ ": " ++ text ++ "\n"

/-- The lines of the FIRST sets. -/
def firstLines? (analysis : Analysis) : Option String :=
  (analysis.firstSets.nonterminals.mapM fun entry =>
    setLine? analysis.grammar entry.1 entry.2).map String.join

/-- The lines of the FOLLOW sets. -/
def followLines? (analysis : Analysis) : Option String :=
  (analysis.followSets.sets.entries.mapM fun entry =>
    setLine? analysis.grammar entry.1 ⟨entry.2, false⟩).map String.join

/-- The line of the predictive table. -/
def predictiveLine? (g : Grammar) (table : PredictiveTable) : Option String :=
  match table.conflict with
  | none => some "- LL(1): yes\n"
  | some conflict => (conflict.text? g).map fun text => "- LL(1): no, " ++ text ++ "\n"

/-- The line of a shift-reduce table. -/
def tableLine (table : ParseTable) : String :=
  let states := toString table.states.length ++ " states"
  match table.conflicts.length with
  | 0 => "- " ++ table.kind.name ++ ": yes (" ++ states ++ ")\n"
  | count =>
    "- " ++ table.kind.name ++ ": no (" ++ states ++ ", " ++ toString count ++ " conflicts)\n"

/-- The lines of the tables that were built. -/
def tableLines? (analysis : Analysis) : Option String := do
  let predictive ←
    match analysis.ll1 with
    | some table => predictiveLine? analysis.grammar table
    | none => some ""
  let tables := [analysis.slr1, analysis.lr1, analysis.lalr1].filterMap id
  return predictive ++ String.join (tables.map tableLine)

/-- The lines on the regular grammar. -/
def regularLines? (analysis : Analysis) : Option String :=
  if analysis.isRegular then
    match analysis.regular with
    | none => some "yes\n"
    | some regular => do
      let regex ←
        match regular.regex with
        | some regex => regex.text? analysis.grammar.terminals.get?
        | none => some "(empty language)"
      return "yes (" ++ toString regular.automaton.dfa.states ++ " DFA states)\nregex: " ++
        regex ++ "\n"
  else some "no\n"

/-- The section of the normal forms, if they were built. -/
def normalSection? (analysis : Analysis) : Option String :=
  match analysis.normalization with
  | none => some ""
  | some outcome => do
    let normalization ← outcome
    let recursionFree ← normalization.withoutLeftRecursion.text?
    let factored ← normalization.withoutCommonPrefix.text?
    let normal ← normalization.almostNormalForm.text?
    return "\n# Normalization\n## without left recursion\n" ++ recursionFree ++
      "## without common prefix\n" ++ factored ++ "## almost CNF\n" ++ normal

/-- The whole report. -/
def report? (analysis : Analysis) : Option String := do
  let grammar ← analysis.grammar.text?
  let first ← analysis.firstLines?
  let follow ← analysis.followLines?
  let tables ← analysis.tableLines?
  let regular ← analysis.regularLines?
  let normal ← analysis.normalSection?
  return "# Grammar\n" ++ grammar ++ "\n# FIRST\n" ++ first ++ "\n# FOLLOW\n" ++ follow ++
    "\n# Parsers\n" ++ tables ++ "\n# Regular\n" ++ regular ++ normal

end GrammarAnalysis.Analysis

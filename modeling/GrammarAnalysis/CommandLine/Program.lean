import GrammarAnalysis.Analysis.Report
import GrammarAnalysis.Analysis.Words
import GrammarAnalysis.CommandLine.Options
import GrammarAnalysis.CommandLine.Session
import GrammarAnalysis.Dot
import GrammarAnalysis.ShiftReduce.Printer

/-!
# The program

The program reads a grammar and prints its report.  Then, as far as they are
asked for, it prints the tables, writes drawings of the automata, and derives
words.  The first request that fails ends the program; what has been printed
before stays.
-/

namespace GrammarAnalysis

namespace Program

/-- Ends with an error and the fault behind it. -/
def fail (message : String) (cause : Option String) : Session :=
  let causeText :=
    match cause with
    | some cause => "\nCaused by:\n    " ++ cause ++ "\n"
    | none => ""
  .complain ("Error: " ++ message ++ "\n" ++ causeText) (.finish 1)

/-- Prints a text that may fail to be rendered, because the grammar lacks a name or its normal
forms ran out of numbers. -/
def printText (text : Option String) (next : Session) : Session :=
  match text with
  | some text => .print text next
  | none => fail "the grammar lacks a name, or there are too few numbers" none

/-- The texts of the tables, each under its title. -/
def tablesText? (analysis : Analysis) : Option String := do
  let predictive ←
    match analysis.ll1 with
    | some table => table.text?.map ("\n# LL(1) table\n" ++ ·)
    | none => some ""
  let tables := [analysis.slr1, analysis.lr1, analysis.lalr1].filterMap id
  let others ← tables.mapM fun table =>
    table.text?.map fun text => "\n# " ++ table.kind.name ++ " table\n" ++ text
  return predictive ++ String.join others

/-- The drawings of the automata, with the names of their files. -/
def drawings? (analysis : Analysis) : Option (List (String × String)) := do
  let augmented ← analysis.grammar.withAcceptRule?
  let items ← DotGraph.ofItemAutomaton? augmented
  let tables := [("slr1.dot", analysis.slr1), ("lr1.dot", analysis.lr1),
    ("lalr1.dot", analysis.lalr1)].filterMap fun (name, table) => table.map (name, ·)
  let automata ← tables.mapM fun (name, table) =>
    (DotGraph.ofParseTable? table).map fun graph => (name, graph.text)
  let regular ←
    match analysis.regular with
    | some regular =>
      (DotGraph.ofDfa? analysis.grammar.terminals.get? regular.automaton.dfa).map fun graph =>
        [("regular.dot", graph.text)]
    | none => some []
  return ("lr0_items.dot", items.text) :: automata ++ regular

/-- Writes files in turn. -/
def writeAll (directory : String) (next : Session) : List (String × String) → Session
  | [] => next
  | (name, text) :: files =>
    let path := Path.join directory name
    .write path text fun
      | .ok () => writeAll directory next files
      | .error reason => fail ("failed to write " ++ path) (some reason.message)

/-- Writes the drawings into a directory. -/
def draw (analysis : Analysis) (directory : String) (next : Session) : Session :=
  .makeDirectory directory fun
    | .error reason =>
      fail ("failed to create the output directory " ++ directory) (some reason.message)
    | .ok () =>
      match drawings? analysis with
      | some files => writeAll directory next files
      | none => fail "the grammar mentions a symbol without a name" none

/-- The derivations of the words of a text, or a warning if there is no parser. -/
def derivationsText? (analysis : Analysis) (trees : Bool) (text : String) : Option String :=
  match analysis.parser? with
  | none =>
    some "\n[warning] The grammar has no deterministic parser; no word was derived.\n"
  | some parser => do
    let results := (analysis.words text).map (WordResult.ofWord parser)
    let shown := results.map fun result => if trees then result else { result with tree := none }
    let texts ← shown.mapM (WordResult.text? parser.grammar)
    return "\n# Derivations (" ++ parser.name ++ ")\n" ++ String.join texts

/-- Derives the words of a file. -/
def deriveWords (analysis : Analysis) (trees : Bool) (path : String) (next : Session) : Session :=
  .read path fun
    | .error reason => fail ("failed to read the words file " ++ path) (some reason.message)
    | .ok text => printText (derivationsText? analysis trees text) next

/-- What is done with an analysis. -/
def present (options : Options) (analysis : Analysis) : Session :=
  let wordsStage :=
    match options.words with
    | some path => deriveWords analysis options.trees path (.finish 0)
    | none => .finish 0
  let drawStage :=
    match options.dotDirectory with
    | some directory => draw analysis directory wordsStage
    | none => wordsStage
  let tableStage :=
    if options.tables then printText (tablesText? analysis) drawStage else drawStage
  printText analysis.report? tableStage

/-- The stages enabled by the options. -/
def stages (options : Options) : Stages :=
  { normalize := !options.skipNormalize, regular := !options.skipRegular }

/-- The program with the given options. -/
def ofOptions (options : Options) : Session :=
  .read options.grammar fun
    | .error reason =>
      fail ("failed to read the grammar file " ++ options.grammar) (some reason.message)
    | .ok text =>
      match Analysis.ofText text (stages options) with
      | .ok analysis => present options analysis
      | .error error => fail error.message error.cause?

/-- The program with the given arguments. -/
def ofArguments (arguments : List String) : Session :=
  match Options.ofArguments? arguments with
  | some options => ofOptions options
  | none => .complain Options.usage (.finish 2)

end Program

end GrammarAnalysis

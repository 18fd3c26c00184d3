import GrammarAnalysis.Derivation.Basic
import GrammarAnalysis.Predictive.Table

/-!
# The predictive parser

The parser keeps the symbols that the rest of the input has to match.  A
terminal on top is matched with the next token; a nonterminal is replaced by
the body of the rule predicted on that token.
-/

namespace GrammarAnalysis

/-- A configuration of the predictive parser. -/
structure PredictiveState where
  /-- The symbols still to be matched, the next one first. -/
  stack : List Symbol
  /-- The tokens not matched yet. -/
  input : List TerminalId
  /-- The rules applied so far, the last one first. -/
  applied : List RuleId

/-- The next token, or the end of input. -/
def lookahead (input : List TerminalId) : TerminalId := input.head?.getD endOfInput

namespace PredictiveTable

/-- One step of the parser. -/
def step (table : PredictiveTable) (state : PredictiveState) : StepResult PredictiveState :=
  match state.stack with
  | [] =>
    if state.input.isEmpty then .stop (.derived ⟨.leftmost, state.applied.reverse⟩)
    else .stop .notRecognized
  | .terminal t :: rest =>
    if t = lookahead state.input && t ≠ endOfInput then
      .next ⟨rest, state.input.tail, state.applied⟩
    else .stop .notRecognized
  | .nonterminal n :: rest =>
    match table.rule? n (lookahead state.input) with
    | none => .stop .notRecognized
    | some id =>
      match table.grammar.rules.get? id with
      | none => .stop .notRecognized
      | some rule => .next ⟨rule.body ++ rest, state.input, id :: state.applied⟩

/-- The configuration before the first step. -/
def initial (table : PredictiveTable) (word : List TerminalId) : PredictiveState :=
  ⟨[.nonterminal table.grammar.start], word, []⟩

/-- Runs the parser on a word for at most `bound` steps. -/
def run (table : PredictiveTable) (bound : Nat) (word : List TerminalId) : Option ParseOutcome :=
  runSteps table.step bound (table.initial word)

/-- A number of steps within which the parser stops if it stops at all.
Between two matches the parser expands a tree in which no path repeats a
nonterminal, since it would repeat it for ever. -/
def stepBound (table : PredictiveTable) (word : List TerminalId) : Nat :=
  let g := table.grammar
  (word.length + 2) * (word.length + 2) * (g.nonterminals.size + g.rules.size + 1) *
    Nat.pow (g.longestBody + 2) (g.nonterminals.size + g.rules.size + 3)

/-- Parses a word, which must not contain the end of input.  There is no answer
if the parser never stops. -/
def parse (table : PredictiveTable) (word : List TerminalId) : Option ParseOutcome :=
  table.run (table.stepBound word) word

end PredictiveTable

end GrammarAnalysis

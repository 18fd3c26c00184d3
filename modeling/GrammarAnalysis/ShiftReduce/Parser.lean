import GrammarAnalysis.Derivation.Basic
import GrammarAnalysis.ShiftReduce.Table

/-!
# The shift-reduce parser

The parser keeps a stack of states.  A shift pushes a state and reads a token;
a reduction pops a state for each symbol of the body and pushes the state to
which the head leads from there.  The rules of a rightmost derivation are found
from the last one to the first.
-/

namespace GrammarAnalysis

/-- A configuration of the shift-reduce parser. -/
structure ShiftReduceState where
  /-- The states, the current one first. -/
  stack : List StateId
  /-- The tokens not read yet. -/
  input : List TerminalId
  /-- The rules reduced so far, the last one first. -/
  reduced : List RuleId

namespace ParseTable

/-- Reduces by a rule.  There must be a state below those of the body, and it
must have a goto on the head. -/
def reduceBy (table : ParseTable) (state : ShiftReduceState) (id : RuleId) (rule : Rule) :
    StepResult ShiftReduceState :=
  match state.stack.drop rule.body.length with
  | [] => .stop .notRecognized
  | top :: below =>
    match table.goto? top rule.head with
    | none => .stop .notRecognized
    | some next => .next ⟨next :: top :: below, state.input, id :: state.reduced⟩

/-- One step of the parser. -/
def step (table : ParseTable) (state : ShiftReduceState) : StepResult ShiftReduceState :=
  match state.stack with
  | [] => .stop .notRecognized
  | top :: _ =>
    match table.action? top (state.input.head?.getD endOfInput) with
    | none => .stop .notRecognized
    | some (.shift next) => .next ⟨next :: state.stack, state.input.tail, state.reduced⟩
    | some (.reduce id) =>
      match table.grammar.rules.get? id with
      | none => .stop .notRecognized
      | some rule => table.reduceBy state id rule
    | some .accept => .stop (.derived ⟨.rightmost, state.reduced⟩)

/-- The configuration before the first step. -/
def initial (word : List TerminalId) : ShiftReduceState := ⟨[0], word, []⟩

/-- Runs the parser on a word for at most `bound` steps. -/
def run (table : ParseTable) (bound : Nat) (word : List TerminalId) : Option ParseOutcome :=
  runSteps table.step bound (initial word)

/-- A number of steps within which the parser stops if it stops at all.  Between
two shifts no configuration can come back, and the stack grows by no more than
the number of states, since a state that is pushed again above itself would be
pushed for ever. -/
def stepBound (table : ParseTable) (word : List TerminalId) : Nat :=
  (word.length + 2) * (word.length + 2) *
    Nat.pow (table.states.length + 2) (table.states.length + 4)

/-- Parses a word, which must not contain the end of input.  There is no answer
if the parser never stops. -/
def parse (table : ParseTable) (word : List TerminalId) : Option ParseOutcome :=
  table.run (table.stepBound word) word

end ParseTable

end GrammarAnalysis

import GrammarAnalysis.Files.Error
import GrammarAnalysis.Symbol

/-!
# What can be wrong with a grammar definition

Faults of the text carry the number of the line, counted from 1; faults of the
definition carry the text of what was defined twice.
-/

namespace GrammarAnalysis

/-- The reason why a grammar definition was refused. -/
inductive GrammarError where
  /-- The grammar file could not be read. -/
  | unreadable (reason : FileError)
  /-- The line has no arrow. -/
  | missingArrow (line : Nat)
  /-- The line has more than one arrow. -/
  | extraArrow (line : Nat)
  /-- The line uses the name of the end of input as a symbol. -/
  | reservedSymbol (line : Nat) (name : String)
  /-- The head of the line is not a single character. -/
  | malformedHead (line : Nat) (head : String)
  /-- The rule has been defined before. -/
  | duplicateRule (rule : String)
  /-- The name has been declared before. -/
  | duplicateSymbol (name : String)
  /-- The rule has been defined before, and mentions a symbol without a name. -/
  | unnamedSymbol
  /-- The definition has no nonterminal. -/
  | empty
  /-- There is no number left for a symbol or a rule. -/
  | numbersExhausted
deriving DecidableEq, Repr

namespace GrammarError

/-- The message shown to the user. -/
def message : GrammarError → String
  | unreadable reason => "IO error: " ++ reason.message
  | missingArrow line => "line " ++ toString line ++ ": missing `->' in production"
  | extraArrow line => "line " ++ toString line ++ ": more than one `->' in production"
  | reservedSymbol line name =>
    "line " ++ toString line ++ ": `" ++ name ++ "' is reserved for the end of input"
  | malformedHead line head =>
    "line " ++ toString line ++ ": malformed head `" ++ head ++
      "', expected a single-character nonterminal"
  | duplicateRule rule => "duplicate production rule `" ++ rule ++ "'"
  | duplicateSymbol name => "the symbol `" ++ name ++ "' has already been declared"
  | unnamedSymbol => "duplicate production rule with an undeclared symbol"
  | empty => "empty grammar"
  | numbersExhausted => "more symbols or rules than there are numbers"

end GrammarError

end GrammarAnalysis

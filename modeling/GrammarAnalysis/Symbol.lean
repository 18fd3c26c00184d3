/-!
# Grammar symbols

Terminals, nonterminals and rules are numbered.  Number 0 is reserved in each
kind: terminal 0 is the end of input, nonterminal 0 is the start symbol of an
augmented grammar, and rule 0 is the rule of that start symbol.  All other
numbers are handed out from 1 on, as long as there are any left: numbers are kept
in 16 bits.
-/

namespace GrammarAnalysis

abbrev TerminalId := Nat

abbrev NonterminalId := Nat

abbrev RuleId := Nat

/-- The terminal that stands for the end of the input. -/
def endOfInput : TerminalId := 0

/-- The name of the end of the input, which no symbol of a grammar text can have. -/
def endOfInputName : String := "$"

/-- The start symbol of augmented grammars. -/
def augmentedStart : NonterminalId := 0

/-- The rule that derives the former start symbol from the augmented one. -/
def acceptRule : RuleId := 0

/-- The last number that can be kept.  It is not handed out, since the number that is handed
out next has to be kept, too. -/
def lastNumber : Nat := 65535

/-- A symbol of a sentential form. -/
inductive Symbol where
  | terminal (t : TerminalId)
  | nonterminal (n : NonterminalId)
deriving DecidableEq, Repr

end GrammarAnalysis

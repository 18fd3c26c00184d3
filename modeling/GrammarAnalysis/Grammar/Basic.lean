import GrammarAnalysis.Collections.OrderedMap
import GrammarAnalysis.Collections.Total
import GrammarAnalysis.Symbol

/-!
# Context-free grammars

A grammar declares its symbols with their names, lists its rules, and names a
start symbol.  All three tables keep the order of declaration, because every
construction and every printed form follows it.

A grammar that was assembled by hand may mention symbols it does not declare.
Looking up the name of such a symbol fails, so the functions that print parts
of a grammar return an optional text.
-/

namespace GrammarAnalysis

/-- A production rule: the head derives the body. -/
structure Rule where
  head : NonterminalId
  body : List Symbol
deriving DecidableEq, Repr

namespace Rule

/-- Whether the rule derives the empty sentence. -/
def isEpsilon (rule : Rule) : Bool := rule.body.isEmpty

end Rule

/-- A context-free grammar with named symbols and numbered rules. -/
structure Grammar where
  terminals : OrderedMap TerminalId String
  nonterminals : OrderedMap NonterminalId String
  rules : OrderedMap RuleId Rule
  start : NonterminalId
deriving DecidableEq

namespace Grammar

/-- Whether the start symbol is the reserved one. -/
def isAugmented (g : Grammar) : Bool := g.start = augmentedStart

/-- The rules with the given head, in the order of definition. -/
def rulesOf (g : Grammar) (n : NonterminalId) : List (RuleId × Rule) :=
  g.rules.entries.filter fun entry => entry.2.head = n

/-- The bodies of the rules with the given head, in the order of definition. -/
def bodiesOf (g : Grammar) (n : NonterminalId) : List (List Symbol) :=
  (g.rulesOf n).map fun entry => entry.2.body

/-- The name of a declared symbol. -/
def name? (g : Grammar) : Symbol → Option String
  | .terminal t => g.terminals.get? t
  | .nonterminal n => g.nonterminals.get? n

/-- The number of symbol occurrences in the bodies of the rules. -/
def bodySize (g : Grammar) : Nat :=
  totalBy (fun rule => rule.body.length) g.rules.values

/-- The length of the longest body. -/
def longestBody (g : Grammar) : Nat :=
  g.rules.values.foldl (fun longest rule => max longest rule.body.length) 0

end Grammar

/-- The terminal with the given name among the listed ones; the end of input is
never found. -/
def terminalNamed? (terminals : OrderedMap TerminalId String) (name : String) :
    Option TerminalId :=
  (terminals.entries.find? fun entry => entry.1 ≠ endOfInput && entry.2 = name).map Prod.fst

/-- The symbol with the given name among the listed ones, nonterminals first. -/
def symbolNamed? (terminals : OrderedMap TerminalId String)
    (nonterminals : OrderedMap NonterminalId String) (name : String) : Option Symbol :=
  match nonterminals.entries.find? fun entry => entry.2 = name with
  | some entry => some (.nonterminal entry.1)
  | none => (terminalNamed? terminals name).map .terminal

namespace Grammar

/-- The terminal with the given name, which is never the end of input. -/
def terminalNamed? (g : Grammar) (name : String) : Option TerminalId :=
  GrammarAnalysis.terminalNamed? g.terminals name

/-- The symbol with the given name, nonterminals first. -/
def symbolNamed? (g : Grammar) (name : String) : Option Symbol :=
  GrammarAnalysis.symbolNamed? g.terminals g.nonterminals name

end Grammar

end GrammarAnalysis

import GrammarAnalysis.Grammar.Basic
import GrammarAnalysis.Iteration.Exploration
import GrammarAnalysis.Iteration.Fixpoint
import GrammarAnalysis.Iteration.Reports

/-!
# Nullable and generating nonterminals

A nonterminal is nullable if it derives the empty word, and generating if it
derives some word of terminals.  Both sets are closed under the same rule: a
head is in the set as soon as every symbol of one of its bodies is; they differ
in whether a terminal counts.
-/

namespace GrammarAnalysis.Grammar

/-- Whether a symbol counts, given the nonterminals that do. -/
def counts (terminalCounts : Bool) (found : List NonterminalId) : Symbol → Bool
  | .terminal _ => terminalCounts
  | .nonterminal n => found.contains n

/-- One pass over the rules, in order: each head with a body of counting symbols
is added, unless it is there already. -/
def closeHeadsStep (g : Grammar) (terminalCounts : Bool) (found : List NonterminalId) :
    List NonterminalId :=
  g.rules.values.foldl
    (fun found rule =>
      if found.contains rule.head then found
      else if rule.body.all (counts terminalCounts found) then found ++ [rule.head]
      else found)
    found

/-- One pass over the rules with the report whether a head was added. -/
def closeHeadsPass (g : Grammar) (terminalCounts : Bool) (found : List NonterminalId) :
    List NonterminalId × Bool :=
  applyReporting
    (fun found rule =>
      if found.contains rule.head then (found, false)
      else if rule.body.all (counts terminalCounts found) then (found ++ [rule.head], true)
      else (found, false))
    g.rules.values found

/-- The heads that follow from the given nonterminals, in the order in which
they are found. -/
def closeHeads (g : Grammar) (terminalCounts : Bool) (found : List NonterminalId) :
    List NonterminalId :=
  stabilize (g.closeHeadsStep terminalCounts) (g.rules.size + 1) found

/-- The heads of the rules with an empty body. -/
def epsilonHeads (g : Grammar) : List NonterminalId :=
  distinct ((g.rules.values.filter Rule.isEpsilon).map Rule.head)

/-- The nonterminals that derive the empty word, in the order in which they are found. -/
def nullable (g : Grammar) : List NonterminalId := g.closeHeads false g.epsilonHeads

/-- The nonterminals that derive some word. -/
def generating (g : Grammar) : List NonterminalId := g.closeHeads true []

end GrammarAnalysis.Grammar

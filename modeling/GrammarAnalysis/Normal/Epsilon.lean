import GrammarAnalysis.Grammar.Definition
import GrammarAnalysis.Lookahead.Nullable

/-!
# Removing epsilon rules

Every rule is replaced by the variants of its body that keep or drop each
nullable occurrence, without the empty one and without `A -> A`.  The derived
words stay the same except for the empty word.
-/

namespace GrammarAnalysis.Grammar

/-- The variants of a body, symbol by symbol: at a nullable occurrence the
variants that keep it come before those that drop it. -/
def variants (nullable : List NonterminalId) (body : List Symbol) : List (List Symbol) :=
  body.foldl
    (fun found symbol =>
      let kept := found.map (· ++ [symbol])
      if counts false nullable symbol then kept ++ found else kept)
    [[]]

/-- The bodies that replace the body of a rule. -/
def epsilonFreeBodies (nullable : List NonterminalId) (rule : Rule) : List (List Symbol) :=
  (variants nullable rule.body).filter fun body =>
    body ≠ [] && body ≠ [.nonterminal rule.head]

/-- Adds the rules that replace those of the grammar. -/
def addEpsilonFree (g : Grammar) (d : Definition) : Definition :=
  let nullable := g.nullable
  g.rules.values.foldl
    (fun d rule => d.ensureRules rule.head (epsilonFreeBodies nullable rule)) d

/-- The grammar without epsilon rules. -/
def withoutEpsilonRules (g : Grammar) : Grammar := g.rebuild g.addEpsilonFree

/-- The grammar without epsilon rules, if there are enough numbers. -/
def withoutEpsilonRules? (g : Grammar) : Option Grammar := g.rebuild? g.addEpsilonFree

/-- Whether the start symbol derives the empty word. -/
def acceptsEmptyWord (g : Grammar) : Bool := g.nullable.contains g.start

end GrammarAnalysis.Grammar

import GrammarAnalysis.Grammar.Basic

/-!
# Printing grammars

A grammar is printed in the form in which it is read: one line for each
nonterminal that has rules, in the order of declaration, with its bodies
separated by bars.  The empty sentence is written `epsilon`.
-/

namespace GrammarAnalysis.Grammar

/-- The names of the symbols, separated by blanks. -/
def sentenceText? (g : Grammar) (sentence : List Symbol) : Option String :=
  if sentence.isEmpty then some "epsilon"
  else (sentence.mapM g.name?).map (" ".intercalate ·)

/-- The rule in the form `A -> a B`. -/
def ruleText? (g : Grammar) (rule : Rule) : Option String := do
  let head ← g.nonterminals.get? rule.head
  let body ← g.sentenceText? rule.body
  return head ++ " -> " ++ body

/-- The rule with the given number in the form `A -> a B`. -/
def ruleTextOf? (g : Grammar) (id : RuleId) : Option String :=
  (g.rules.get? id).bind g.ruleText?

/-- The line of a nonterminal; it is empty if the nonterminal has no rules. -/
def lineText? (g : Grammar) (n : NonterminalId) (name : String) : Option String :=
  match g.bodiesOf n with
  | [] => some ""
  | bodies => do
    let texts ← bodies.mapM g.sentenceText?
    return name ++ " -> " ++ " | ".intercalate texts ++ "\n"

/-- The whole grammar, in the form in which it is read. -/
def text? (g : Grammar) : Option String := do
  let lines ← g.nonterminals.entries.mapM fun entry => g.lineText? entry.1 entry.2
  return String.join lines

end GrammarAnalysis.Grammar

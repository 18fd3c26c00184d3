import GrammarAnalysis.Derivation.Relation
import GrammarAnalysis.Item.Basic

/-!
# Valid items

An item is valid after a list of symbols, with a lookahead, if some rightmost
derivation comes to a sentential form in which its rule has just been applied,
the part of the body in front of the marker ends the list of symbols, and the
lookahead is the first terminal after the body.
-/

namespace GrammarAnalysis.Grammar

/-- The first terminal of a word, or the end of input. -/
def firstTerminal (word : List TerminalId) : TerminalId := word.head?.getD endOfInput

/-- Whether an item is valid after the symbols `seen`, with the lookahead `t`. -/
inductive IsValidItem (g : Grammar) : List Symbol → Item → TerminalId → Prop
  | intro {rule : Rule} {item : Item} {ids : List RuleId} {before : List Symbol}
      {after : List TerminalId} (known : g.rules.get? item.rule = some rule)
      (inside : item.marker ≤ rule.body.length)
      (derived : g.DerivesBy .rightmost ids [.nonterminal g.start]
        (before ++ .nonterminal rule.head :: sentence after)) :
      IsValidItem g (before ++ rule.body.take item.marker) item (firstTerminal after)

end GrammarAnalysis.Grammar

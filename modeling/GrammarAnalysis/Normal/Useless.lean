import GrammarAnalysis.Grammar.Definition
import GrammarAnalysis.Lookahead.Nullable

/-!
# Removing useless symbols

A symbol is useful if it occurs in a derivation of a word from the start
symbol: it derives a word, and it is reached from the start symbol through
rules all of whose symbols derive words.
-/

namespace GrammarAnalysis

namespace Definition

/-- Adds the rules of a grammar, in order, leaving out repetitions. -/
def copyRules (d : Definition) (g : Grammar) : Definition :=
  g.rules.values.foldl (fun d rule => (d.ensureRule rule.head rule.body).2) d

end Definition

namespace Grammar

/-- The symbols in the bodies of the rules of a symbol, as far as every symbol
of the body derives a word. -/
def usefulSuccessors (g : Grammar) (generating : List NonterminalId) : Symbol → List Symbol
  | .terminal _ => []
  | .nonterminal n => ((g.bodiesOf n).filter (·.all (counts true generating))).flatten

/-- The symbols reached from the start symbol, if it derives a word. -/
def reachableSymbols (g : Grammar) (generating : List NonterminalId) : List Symbol :=
  if generating.contains g.start then
    reachable (g.usefulSuccessors generating) (g.bodySize + 2) [.nonterminal g.start]
  else []

/-- Adds all rules, and drops the useless symbols. -/
def addUseful (g : Grammar) (d : Definition) : Definition :=
  let generating := g.generating
  let reached := g.reachableSymbols generating
  (d.copyRules g).retain fun symbol => reached.contains symbol && counts true generating symbol

/-- The grammar without useless symbols.  The start symbol stays declared even
if it derives no word. -/
def withoutUselessSymbols (g : Grammar) : Grammar := g.rebuild g.addUseful

/-- The grammar without useless symbols, if there are enough numbers. -/
def withoutUselessSymbols? (g : Grammar) : Option Grammar := g.rebuild? g.addUseful

end Grammar

end GrammarAnalysis

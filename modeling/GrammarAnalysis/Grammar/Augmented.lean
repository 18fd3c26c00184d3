import GrammarAnalysis.Grammar.Definition

/-!
# Augmented grammars

The shift-reduce constructions work on a grammar whose start symbol has a
single rule and occurs in no body.  Augmenting adds the reserved start symbol
with the reserved rule, both in front, and keeps everything else.
-/

namespace GrammarAnalysis.Grammar

/-- The name of the added start symbol: that of the present one with apostrophes. -/
def augmentedName (g : Grammar) (base : String) : String :=
  freshName (g.nonterminals.values ++ g.terminals.values) base

/-- The grammar with the reserved start symbol.  Fails if the present start
symbol is not declared. -/
def augmented? (g : Grammar) : Option Grammar :=
  if g.isAugmented then some g
  else do
    let base ← g.nonterminals.get? g.start
    return {
      terminals := g.terminals
      nonterminals :=
        OrderedMap.ofList ((augmentedStart, g.augmentedName base) :: g.nonterminals.entries)
      rules :=
        OrderedMap.ofList
          ((acceptRule, ⟨augmentedStart, [.nonterminal g.start]⟩) :: g.rules.entries)
      start := augmentedStart }

end GrammarAnalysis.Grammar

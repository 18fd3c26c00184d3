import GrammarAnalysis.Grammar.Definition

/-!
# Well-formed grammars

A grammar that is read from text, and every grammar made from it, names its
symbols apart, repeats no rule, and mentions declared symbols only.  A
definition keeps this as long as its steps mention declared symbols only.
-/

namespace GrammarAnalysis

namespace Grammar

/-- Whether a symbol is declared. -/
def Declares (g : Grammar) : Symbol → Prop
  | .terminal t => t ∈ g.terminals.keys
  | .nonterminal n => n ∈ g.nonterminals.keys

/-- Symbols have names of their own, rules are not repeated, and every symbol
that is mentioned is declared. -/
structure WellFormed (g : Grammar) : Prop where
  names_nodup : (g.terminals.values ++ g.nonterminals.values).Nodup
  endOfInput_named : g.terminals.get? endOfInput = some endOfInputName
  rules_nodup : g.rules.values.Nodup
  start_declared : g.Declares (.nonterminal g.start)
  heads_declared : ∀ rule ∈ g.rules.values, g.Declares (.nonterminal rule.head)
  bodies_declared : ∀ rule ∈ g.rules.values, ∀ symbol ∈ rule.body, g.Declares symbol

end Grammar

/-- What every step of a definition keeps: names apart, numbers below those
handed out next, no rule repeated, and no undeclared symbol mentioned. -/
structure Definition.WellFormed (d : Definition) : Prop where
  names_nodup : d.names.Nodup
  terminals_below : ∀ t ∈ d.terminals.keys, t < d.nextTerminal
  nonterminals_below : ∀ n ∈ d.nonterminals.keys, n < d.nextNonterminal
  rules_below : ∀ id ∈ d.rules.keys, id < d.nextRule
  rules_nodup : d.rules.values.Nodup
  rules_declared : ∀ rule ∈ d.rules.values,
    d.declaresSymbol (.nonterminal rule.head) = true ∧
      ∀ symbol ∈ rule.body, d.declaresSymbol symbol = true

end GrammarAnalysis

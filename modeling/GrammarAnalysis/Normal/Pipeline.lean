import GrammarAnalysis.Normal.CommonPrefix
import GrammarAnalysis.Normal.Epsilon
import GrammarAnalysis.Normal.LeftRecursion
import GrammarAnalysis.Normal.Unit
import GrammarAnalysis.Normal.Useless

/-!
# Normal forms in sequence

Useless symbols, epsilon rules and unit rules are removed in that order.  If
the language contains the empty word, a fresh start symbol gives it back, so
that every rule but those of the start symbol has a body that is neither empty
nor a single nonterminal.
-/

namespace GrammarAnalysis

namespace Grammar

/-- Adds all rules, and a fresh start symbol that derives the present one and the
empty word. -/
def addEmptyStart (g : Grammar) (d : Definition) : Definition :=
  let d := d.copyRules g
  let (fresh, d) := d.freshNonterminal ((d.nonterminals.get? g.start).getD "")
  (d.ensureRules fresh [[.nonterminal g.start], []]).setStart fresh

/-- The grammar with a fresh start symbol that derives the present one and the
empty word. -/
def withEmptyStart (g : Grammar) : Grammar := g.rebuild g.addEmptyStart

/-- The grammar with a fresh start symbol, if there are enough numbers. -/
def withEmptyStart? (g : Grammar) : Option Grammar := g.rebuild? g.addEmptyStart

/-- The grammar with a fresh start symbol if the empty word is wanted. -/
def restoreEmptyWord (g : Grammar) (wanted : Bool) : Grammar :=
  if wanted then g.withEmptyStart else g

/-- The grammar with a fresh start symbol if the empty word is wanted and there are enough
numbers. -/
def restoreEmptyWord? (g : Grammar) (wanted : Bool) : Option Grammar :=
  if wanted then g.withEmptyStart? else some g

/-- The grammar without useless symbols, epsilon rules and unit rules, up to the
rules of a fresh start symbol; and whether there is one. -/
def almostNormalForm (g : Grammar) : Grammar × Bool :=
  let useful := g.withoutUselessSymbols
  let wanted := useful.acceptsEmptyWord
  (useful.withoutEpsilonRules.withoutUnitRules.restoreEmptyWord wanted, wanted)

/-- The same, if there are enough numbers for each of the grammars that are made. -/
def almostNormalForm? (g : Grammar) : Option (Grammar × Bool) := do
  let useful ← g.withoutUselessSymbols?
  let wanted := useful.acceptsEmptyWord
  let epsilonFree ← useful.withoutEpsilonRules?
  let unitFree ← epsilonFree.withoutUnitRules?
  return (← unitFree.restoreEmptyWord? wanted, wanted)

end Grammar

/-- The results of all passes, each applied to the result of the one before. -/
structure Normalization where
  withoutLeftRecursion : Grammar
  withoutCommonPrefix : Grammar
  withoutUselessSymbols : Grammar
  withoutEpsilonRules : Grammar
  almostNormalForm : Grammar
  acceptsEmptyWord : Bool

namespace Normalization

/-- Runs all passes, if there are enough numbers for each of the grammars that are made. -/
def ofGrammar? (g : Grammar) : Option Normalization := do
  let recursionFree ← g.withoutLeftRecursion?
  let factored ← recursionFree.withoutCommonPrefix?
  let useful ← factored.withoutUselessSymbols?
  let wanted := useful.acceptsEmptyWord
  let epsilonFree ← useful.withoutEpsilonRules?
  let unitFree ← epsilonFree.withoutUnitRules?
  let normal ← unitFree.restoreEmptyWord? wanted
  return {
    withoutLeftRecursion := recursionFree
    withoutCommonPrefix := factored
    withoutUselessSymbols := useful
    withoutEpsilonRules := epsilonFree
    almostNormalForm := normal
    acceptsEmptyWord := wanted }

end Normalization

end GrammarAnalysis

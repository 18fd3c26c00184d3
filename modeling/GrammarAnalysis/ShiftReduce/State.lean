import GrammarAnalysis.Item.Set

/-!
# States of shift-reduce parsers

A state is a set of items together with its numbered transitions.  It is the
common form of the states of all three constructions; states without
lookaheads have empty sets of them.
-/

namespace GrammarAnalysis

abbrev StateId := Nat

/-- A state of a shift-reduce parser. -/
structure ParserState where
  items : ItemSet
  transitions : OrderedMap Symbol StateId
deriving DecidableEq

end GrammarAnalysis

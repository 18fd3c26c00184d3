import GrammarAnalysis.Collections.NatSet
import GrammarAnalysis.Symbol

/-!
# Sets of terminals with an epsilon marker

The FIRST set of a sentence holds terminals, and the marker tells whether the
sentence derives the empty word.
-/

namespace GrammarAnalysis

/-- A set of terminals, together with a marker for the empty word. -/
structure TerminalSet where
  terminals : NatSet
  epsilon : Bool
deriving DecidableEq

namespace TerminalSet

/-- The set without terminals and without the marker. -/
def empty : TerminalSet := ⟨∅, false⟩

instance : EmptyCollection TerminalSet := ⟨empty⟩

instance : Inhabited TerminalSet := ⟨∅⟩

/-- The set that holds the marker only. -/
def onlyEpsilon : TerminalSet := ⟨∅, true⟩

/-- The set that holds one terminal only. -/
def singleton (t : TerminalId) : TerminalSet := ⟨NatSet.singleton t, false⟩

/-- The set of the listed terminals, without the marker. -/
def ofList (ts : List TerminalId) : TerminalSet := ⟨NatSet.ofList ts, false⟩

/-- Whether the terminal is in the set. -/
def contains (s : TerminalSet) (t : TerminalId) : Bool := t ∈ s.terminals

/-- The set with the terminals of another one, whose marker is ignored. -/
def addTerminals (s t : TerminalSet) : TerminalSet :=
  { s with terminals := s.terminals ∪ t.terminals }

/-- The union of two sets, markers included. -/
def union (s t : TerminalSet) : TerminalSet := ⟨s.terminals ∪ t.terminals, s.epsilon || t.epsilon⟩

instance : Union TerminalSet := ⟨union⟩

/-- Adds a terminal, and reports whether it is new. -/
def insert (s : TerminalSet) (t : TerminalId) : TerminalSet × Bool :=
  let terminals := s.terminals.insertNew t
  ({ s with terminals := terminals.1 }, terminals.2)

/-- Adds the marker, and reports whether it is new. -/
def setEpsilon (s : TerminalSet) : TerminalSet × Bool := ({ s with epsilon := true }, !s.epsilon)

/-- Adds the terminals of another set, whose marker is ignored, and reports whether
one of them is new. -/
def updateTerminals (s t : TerminalSet) : TerminalSet × Bool :=
  let terminals := s.terminals.update t.terminals
  ({ s with terminals := terminals.1 }, terminals.2)

/-- Adds the terminals of another set and its marker, and reports whether anything is new. -/
def update (s t : TerminalSet) : TerminalSet × Bool :=
  let added := s.updateTerminals t
  if t.epsilon then
    let marked := added.1.setEpsilon
    (marked.1, added.2 || marked.2)
  else added

/-- Whether the set has neither terminals nor the marker. -/
def isEmpty (s : TerminalSet) : Bool := !s.epsilon && s.terminals.isEmpty

/-- The number of terminals. -/
def size (s : TerminalSet) : Nat := s.terminals.size

/-- The set in braces: the names of its terminals in ascending order of their
numbers, then the marker. -/
def text? (name? : TerminalId → Option String) (s : TerminalSet) : Option String := do
  let names ← s.terminals.toList.mapM name?
  let parts := names ++ if s.epsilon then ["epsilon"] else []
  return "\x7b" ++ ", ".intercalate parts ++ "\x7d"

end TerminalSet

end GrammarAnalysis

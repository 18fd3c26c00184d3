/-!
# Steps that report changes

The loops that enlarge sets run as long as a pass reports that it has changed
something.  A pass applies steps one after the other, each of which returns its
report beside the new value, and it reports a change if one of its steps does.
-/

namespace GrammarAnalysis

variable {α β κ : Type}

/-- Applies steps that report changes in turn, and reports whether one of them has. -/
def applyReporting (step : α → β → α × Bool) (bs : List β) (a : α) : α × Bool :=
  bs.foldl
    (fun done b =>
      let next := step done.1 b
      (next.1, done.2 || next.2))
    (a, false)

/-- Adds a member at the end of a list, and reports whether it is new. -/
def insertNew [DecidableEq κ] (known : List κ) (k : κ) : List κ × Bool :=
  if k ∈ known then (known, false) else (known ++ [k], true)

end GrammarAnalysis

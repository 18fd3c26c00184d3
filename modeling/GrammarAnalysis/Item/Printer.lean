import GrammarAnalysis.Item.Set

/-!
# Printing items

An item is printed as its rule with a point at the place of the marker,
followed by its lookaheads, if it has any, in ascending order.
-/

namespace GrammarAnalysis

namespace Grammar

/-- The item in the form `A -> x . y`. -/
def itemText? (g : Grammar) (item : Item) : Option String := do
  let rule ← g.rules.get? item.rule
  let head ← g.nonterminals.get? rule.head
  let before ← (rule.body.take item.marker).mapM g.name?
  let after ← (rule.body.drop item.marker).mapM g.name?
  return head ++ " ->" ++ String.join ((before ++ "." :: after).map (" " ++ ·))

/-- The item with its lookaheads, in the form `A -> x . y, a/b`. -/
def entryText? (g : Grammar) (entry : Item × NatSet) : Option String := do
  let text ← g.itemText? entry.1
  if entry.2.isEmpty then return text
  else
    let lookaheads ← entry.2.toList.mapM g.terminals.get?
    return text ++ ", " ++ "/".intercalate lookaheads

/-- The items with their lookaheads, in ascending order. -/
def entryTexts? (g : Grammar) (items : ItemSet) : Option (List String) :=
  items.entries.mapM g.entryText?

/-- The items with their lookaheads, one per line. -/
def itemsText? (g : Grammar) (items : ItemSet) : Option String :=
  (g.entryTexts? items).map fun texts => String.join (texts.map fun text => "- " ++ text ++ "\n")

end Grammar

end GrammarAnalysis

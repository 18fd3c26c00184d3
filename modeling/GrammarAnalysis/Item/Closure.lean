import GrammarAnalysis.Item.Set
import GrammarAnalysis.Iteration.Exploration
import GrammarAnalysis.Lookahead.First

/-!
# Closure and transitions of item sets

If an item expects a nonterminal, the rules of that nonterminal may begin at
the same place.  The closure of a set adds their initial items, with the
terminals that can come after the nonterminal as lookaheads.  A transition over
a symbol moves the markers that stand in front of it.
-/

namespace GrammarAnalysis

namespace Grammar

/-- The terminals that can come after the next symbol of an item, given the
lookaheads of the item. -/
def spawnedLookaheads (g : Grammar) (first : FirstSets) (item : Item) (lookaheads : NatSet) :
    NatSet :=
  (g.previews item lookaheads.toList).foldl
    (fun found preview => found ∪ (first.ofSentence preview).terminals) ∅

/-- The initial items that an entry of a set calls for. -/
def spawned (g : Grammar) (first : FirstSets) (entry : Item × NatSet) : List (Item × NatSet) :=
  match g.next? entry.1 with
  | some (.nonterminal n) =>
    let lookaheads := g.spawnedLookaheads first entry.1 entry.2
    (g.initialItems n).map fun item => (item, lookaheads)
  | _ => []

/-- One round of the closure: every entry adds the items it calls for. -/
def closureStep (g : Grammar) (first : FirstSets) (items : ItemSet) : ItemSet :=
  items.addAll (items.entries.flatMap (g.spawned first))

/-- The items that the entries of a set call for, each once, with all lookaheads that
are found for it. -/
def calledFor (g : Grammar) (first : FirstSets) (items : ItemSet) : OrderedMap Item NatSet :=
  (items.entries.flatMap (g.spawned first)).foldl
    (fun found entry => found.upsert entry.1 fun known => known.getD ∅ ∪ entry.2) ∅

/-- One round of the closure with the report whether an item or a lookahead was added.  The
items are collected first, from the set as it is, and added then. -/
def closurePass (g : Grammar) (first : FirstSets) (items : ItemSet) : ItemSet × Bool :=
  applyReporting (fun items entry => items.update entry.1 entry.2)
    (g.calledFor first items).entries items

/-- A number of rounds after which nothing changes any more: each round but the
last one adds an initial item or a lookahead of one. -/
def closureBound (g : Grammar) : Nat := g.rules.size * (g.terminals.size + 1) + 1

/-- The closure of a set of items. -/
def closure (g : Grammar) (first : FirstSets) (items : ItemSet) : ItemSet :=
  stabilize (g.closureStep first) g.closureBound items

/-- The items that expect the symbol, with their markers moved over it. -/
def goto (g : Grammar) (items : ItemSet) (symbol : Symbol) : ItemSet :=
  ItemSet.ofList ((items.entries.filter fun entry => g.next? entry.1 = some symbol).map
    fun entry => (entry.1.advance, entry.2))

/-- The symbols that the items expect, in the order of the items. -/
def expected (g : Grammar) (items : ItemSet) : List Symbol :=
  distinct (items.cores.filterMap g.next?)

/-- The transitions of a set of items, by symbol. -/
def transitions (g : Grammar) (items : ItemSet) : List (Symbol × ItemSet) :=
  (g.expected items).map fun symbol => (symbol, g.goto items symbol)

end Grammar

end GrammarAnalysis

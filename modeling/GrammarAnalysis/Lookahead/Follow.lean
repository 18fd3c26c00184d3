import GrammarAnalysis.Lookahead.First

/-!
# FOLLOW sets

The FOLLOW set of a nonterminal holds the terminals that can stand right after
it in a sentential form, and the end of input if it can stand at the end.
-/

namespace GrammarAnalysis

/-- The FOLLOW sets found so far. -/
structure FollowSets where
  sets : OrderedMap NonterminalId NatSet
deriving DecidableEq

namespace FollowSets

/-- Adds what can follow each nonterminal of a sentence that is derived from
`head`: the terminals that start the rest, and what follows `head` if the rest
derives the empty sentence. -/
def absorb (first : FirstSets) (head : NonterminalId) (follow : FollowSets) :
    List Symbol → FollowSets
  | [] => follow
  | .terminal _ :: rest => follow.absorb first head rest
  | .nonterminal n :: rest =>
    let suffix := first.ofSentence rest
    let inherited := if suffix.epsilon then (follow.sets.get? head).getD ∅ else ∅
    let found := suffix.terminals ∪ inherited
    absorb first head ⟨follow.sets.upsert n fun set => set.getD ∅ ∪ found⟩ rest

/-- One pass over the rules, in order. -/
def step (g : Grammar) (first : FirstSets) (follow : FollowSets) : FollowSets :=
  g.rules.values.foldl (fun follow rule => follow.absorb first rule.head rule.body) follow

/-- Adds what can follow each nonterminal of a sentence, and reports whether one of
the sets has changed. -/
def update (first : FirstSets) (head : NonterminalId) (follow : FollowSets) :
    List Symbol → FollowSets × Bool
  | [] => (follow, false)
  | .terminal _ :: rest => follow.update first head rest
  | .nonterminal n :: rest =>
    let suffix := first.ofSentence rest
    let inherited := if suffix.epsilon then (follow.sets.get? head).getD ∅ else ∅
    let sets := follow.sets.updateEntry n (·.update (suffix.terminals ∪ inherited))
    let last := update first head ⟨sets.1⟩ rest
    (last.1, sets.2 || last.2)

/-- One pass over the rules with the report whether some set has changed. -/
def pass (g : Grammar) (first : FirstSets) (follow : FollowSets) : FollowSets × Bool :=
  applyReporting (fun follow rule => follow.update first rule.head rule.body) g.rules.values follow

/-- The start of the iteration: the start symbol is followed by the end of input. -/
def initial (g : Grammar) : FollowSets :=
  let sets := OrderedMap.ofList (g.nonterminals.keys.map fun n => (n, (∅ : NatSet)))
  ⟨sets.upsert g.start fun set => (set.getD ∅).insert endOfInput⟩

/-- A number of passes after which nothing changes any more. -/
def passBound (g : Grammar) : Nat :=
  (g.nonterminals.size + g.bodySize + 2) * (g.terminals.size + 3)

/-- The FOLLOW sets of a grammar, from its FIRST sets. -/
def ofGrammar (g : Grammar) (first : FirstSets) : FollowSets :=
  stabilize (step g first) (passBound g) (initial g)

/-- The FOLLOW set of a nonterminal, if there is one. -/
def get? (follow : FollowSets) (n : NonterminalId) : Option NatSet := follow.sets.get? n

end FollowSets

end GrammarAnalysis

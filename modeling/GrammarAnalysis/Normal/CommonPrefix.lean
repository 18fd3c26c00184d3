import GrammarAnalysis.Grammar.Definition

/-!
# Left factoring

The rules `A -> x b | x c` become `A -> x A'` and `A' -> b | c`.  The fresh
nonterminals wait in a queue and are factored in turn, until no two rules of a
nonterminal start with the same symbol.
-/

namespace GrammarAnalysis

/-- A nonterminal that waits to be given its bodies. -/
structure PendingBodies where
  head : NonterminalId
  bodies : List (List Symbol)

namespace PendingBodies

/-- The bodies grouped by their first symbol, in the order of first occurrence. -/
def groups (pending : PendingBodies) : List (Option Symbol × List (List Symbol)) :=
  (OrderedMap.group (pending.bodies.map fun body => (body.head?, body))).entries

/-- One more than the number of symbols in the bodies.  Factoring replaces a
pending entry by entries of a smaller total weight. -/
def weight (pending : PendingBodies) : Nat := 1 + totalBy List.length pending.bodies

end PendingBodies

namespace Definition

/-- Adds the rules for one group of bodies.  Two or more bodies that start with
the same symbol share it, and their remainders go to a fresh nonterminal. -/
def addGroup (head : NonterminalId) (d : Definition) :
    Option Symbol × List (List Symbol) → Definition × List PendingBodies
  | (some first, body :: other :: more) =>
    let (tail, d) := d.freshNonterminal ((d.nonterminals.get? head).getD "")
    let (_, d) := d.ensureRule head [first, .nonterminal tail]
    (d, [⟨tail, (body :: other :: more).map List.tail⟩])
  | (_, bodies) => (d.ensureRules head bodies, [])

/-- Adds the rules for the groups in order, and collects what is left to do. -/
def addGroups (head : NonterminalId) (d : Definition) :
    List (Option Symbol × List (List Symbol)) → Definition × List PendingBodies
  | [] => (d, [])
  | group :: groups =>
    let (d, tails) := d.addGroup head group
    let (d, more) := d.addGroups head groups
    (d, tails ++ more)

/-- Factors the pending nonterminals, with at most `bound` of them in all. -/
def factor : Nat → List PendingBodies → Definition → Definition
  | 0, _, d => d
  | _ + 1, [], d => d
  | bound + 1, pending :: queue, d =>
    let (d, tails) := d.addGroups pending.head pending.groups
    factor bound (queue ++ tails) d

end Definition

namespace Grammar

/-- Adds the factored rules of all nonterminals. -/
def addFactored (g : Grammar) (d : Definition) : Definition :=
  let pending := g.nonterminals.keys.map fun n => (⟨n, g.bodiesOf n⟩ : PendingBodies)
  Definition.factor (totalBy PendingBodies.weight pending) pending d

/-- The grammar in which no two rules of a nonterminal start with the same symbol. -/
def withoutCommonPrefix (g : Grammar) : Grammar := g.rebuild g.addFactored

/-- The factored grammar, if there are enough numbers. -/
def withoutCommonPrefix? (g : Grammar) : Option Grammar := g.rebuild? g.addFactored

end Grammar

end GrammarAnalysis

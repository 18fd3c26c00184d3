import GrammarAnalysis.Grammar.Definition

/-!
# Removing immediate left recursion

The rules `A -> A x | A y | b | c` become `A -> b A' | c A'` and
`A' -> x A' | y A' | epsilon`.  A rule `A -> A` is dropped.
-/

namespace GrammarAnalysis.Grammar

/-- What follows the head in the bodies that start with it, without the empty remainders. -/
def recursiveTails (g : Grammar) (n : NonterminalId) : List (List Symbol) :=
  (g.bodiesOf n).filterMap fun body =>
    match body with
    | [] | [_] => none
    | symbol :: rest => if symbol = .nonterminal n then some rest else none

/-- The bodies that do not start with the head. -/
def otherBodies (g : Grammar) (n : NonterminalId) : List (List Symbol) :=
  (g.bodiesOf n).filter fun body => body.head? ≠ some (.nonterminal n)

/-- Adds the rules of one nonterminal without left recursion. -/
def addWithoutRecursion (g : Grammar) (d : Definition) (n : NonterminalId) (name : String) :
    Definition :=
  match g.recursiveTails n with
  | [] => d.ensureRules n (g.otherBodies n)
  | tails =>
    let (tail, d) := d.freshNonterminal name
    let closed := fun body : List Symbol => body ++ [.nonterminal tail]
    let d := d.ensureRules n ((g.otherBodies n).map closed)
    d.ensureRules tail (tails.map closed ++ [[]])

/-- Adds the rules of all nonterminals without left recursion. -/
def addRecursionFree (g : Grammar) (d : Definition) : Definition :=
  g.nonterminals.entries.foldl (fun d entry => g.addWithoutRecursion d entry.1 entry.2) d

/-- The grammar without immediate left recursion. -/
def withoutLeftRecursion (g : Grammar) : Grammar := g.rebuild g.addRecursionFree

/-- The grammar without immediate left recursion, if there are enough numbers. -/
def withoutLeftRecursion? (g : Grammar) : Option Grammar := g.rebuild? g.addRecursionFree

end GrammarAnalysis.Grammar

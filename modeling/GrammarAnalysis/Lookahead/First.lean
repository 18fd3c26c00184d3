import GrammarAnalysis.Grammar.Basic
import GrammarAnalysis.Iteration.Fixpoint
import GrammarAnalysis.Iteration.Reports
import GrammarAnalysis.Lookahead.TerminalSet

/-!
# FIRST sets

The FIRST set of a sentence holds the terminals with which the sentential
forms derived from it can start, and the epsilon marker if it derives the
empty sentence.  The sets of all symbols and of all rule bodies are the least
solution of the equations given by the rules.
-/

namespace GrammarAnalysis

/-- The FIRST sets of symbols and of rule bodies found so far. -/
structure FirstSets where
  symbols : OrderedMap Symbol TerminalSet
  rules : OrderedMap RuleId TerminalSet
deriving DecidableEq

namespace FirstSets

/-- The FIRST set of a sentence.  Symbols count up to the first one that is not
known to derive the empty sentence; nothing is known of a symbol without a set. -/
def ofSentence (first : FirstSets) : List Symbol → TerminalSet
  | [] => .onlyEpsilon
  | symbol :: rest =>
    match first.symbols.get? symbol with
    | none => ∅
    | some set =>
      if set.epsilon then (first.ofSentence rest).addTerminals set
      else ⟨set.terminals, false⟩

/-- Adds the FIRST set of the body to the sets of the rule and of its head. -/
def absorb (first : FirstSets) (id : RuleId) (rule : Rule) : FirstSets :=
  let found := first.ofSentence rule.body
  { symbols := first.symbols.upsert (.nonterminal rule.head) fun set => set.getD ∅ ∪ found
    rules := first.rules.upsert id fun set => set.getD ∅ ∪ found }

/-- One pass over the rules, in order. -/
def step (g : Grammar) (first : FirstSets) : FirstSets :=
  g.rules.entries.foldl (fun first entry => first.absorb entry.1 entry.2) first

/-- Adds the FIRST set of the body to the sets of the rule and of its head, and
reports whether one of them has changed. -/
def update (first : FirstSets) (id : RuleId) (rule : Rule) : FirstSets × Bool :=
  let found := first.ofSentence rule.body
  let rules := first.rules.updateEntry id (·.update found)
  let symbols := first.symbols.updateEntry (.nonterminal rule.head) (·.update found)
  (⟨symbols.1, rules.1⟩, rules.2 || symbols.2)

/-- One pass over the rules with the report whether some set has changed.  A new
empty set does not count. -/
def pass (g : Grammar) (first : FirstSets) : FirstSets × Bool :=
  applyReporting (fun first entry => first.update entry.1 entry.2) g.rules.entries first

/-- The start of the iteration: a terminal starts with itself, and nothing is
known of a nonterminal. -/
def initial (g : Grammar) : FirstSets where
  symbols := OrderedMap.ofList
    (g.terminals.keys.map (fun t => (.terminal t, .singleton t)) ++
      g.nonterminals.keys.map fun n => (.nonterminal n, ∅))
  rules := ∅

/-- A number of passes after which nothing changes any more: each pass but the
last one adds a set or enlarges one. -/
def passBound (g : Grammar) : Nat :=
  (g.nonterminals.size + 2 * g.rules.size + 1) * (g.terminals.size + 2)

/-- The FIRST sets of a grammar. -/
def ofGrammar (g : Grammar) : FirstSets := stabilize (step g) (passBound g) (initial g)

/-- The FIRST set of a symbol, if there is one. -/
def get? (first : FirstSets) (symbol : Symbol) : Option TerminalSet := first.symbols.get? symbol

/-- The FIRST set of the body of a rule, if there is one. -/
def ofRule? (first : FirstSets) (id : RuleId) : Option TerminalSet := first.rules.get? id

/-- The FIRST sets of the nonterminals, in order. -/
def nonterminals (first : FirstSets) : List (NonterminalId × TerminalSet) :=
  first.symbols.entries.filterMap fun entry =>
    match entry.1 with
    | .nonterminal n => some (n, entry.2)
    | .terminal _ => none

end FirstSets

end GrammarAnalysis

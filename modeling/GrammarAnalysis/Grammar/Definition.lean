import GrammarAnalysis.Grammar.Basic
import GrammarAnalysis.Grammar.Error

/-!
# Defining a grammar step by step

A definition collects symbols and rules and hands out their numbers in
increasing order.  A step that fails returns no new definition, so it uses up
no number.  Definitions start either empty, with only the end of input
declared, or from the symbols of an existing grammar, whose rules are then
numbered afresh.

Numbers run out.  A step that draws the last number fails, and a grammar that is
rebuilt by many steps exists only if its definition stays within the numbers
there are (`Definition.fits`).  Since no step gives a number back, it is enough
to look at the definition that the steps end with.
-/

namespace GrammarAnalysis

/-- A grammar under construction. -/
structure Definition where
  terminals : OrderedMap TerminalId String
  nonterminals : OrderedMap NonterminalId String
  rules : OrderedMap RuleId Rule
  start : Option NonterminalId
  /-- The number of the terminal declared next. -/
  nextTerminal : Nat
  /-- The number of the nonterminal declared next. -/
  nextNonterminal : Nat
  /-- The number of the rule added next. -/
  nextRule : Nat

/-- The least number from 1 on above all the given ones. -/
def nextNumber (used : List Nat) : Nat := used.foldl (fun next n => max next (n + 1)) 1

/-- `count` apostrophes. -/
def primes (count : Nat) : String := String.ofList (List.replicate count '\'')

/-- `base` with the least positive number of apostrophes that makes it differ
from all used names. -/
def freshName (used : List String) (base : String) : String :=
  let candidates := (List.range (used.length + 1)).map fun count => base ++ primes (count + 1)
  (candidates.find? fun name => !used.contains name).getD base

/-- What a step makes that hands out this number, if another one can be kept for the next
step. -/
def drawing {α : Type} (number : Nat) (made : α) : Except GrammarError α :=
  if number < lastNumber then .ok made else .error .numbersExhausted

namespace Definition

/-- The definition that declares the end of input only. -/
def empty : Definition where
  terminals := OrderedMap.ofList [(endOfInput, endOfInputName)]
  nonterminals := ∅
  rules := ∅
  start := none
  nextTerminal := 1
  nextNonterminal := 1
  nextRule := 1

/-- Whether there have been enough numbers. -/
def fits (d : Definition) : Bool :=
  d.nextTerminal ≤ lastNumber && d.nextNonterminal ≤ lastNumber && d.nextRule ≤ lastNumber

/-- The names of all declared symbols. -/
def names (d : Definition) : List String := d.terminals.values ++ d.nonterminals.values

/-- Whether some symbol has this name. -/
def declares (d : Definition) (name : String) : Bool := d.names.contains name

/-- The name of a declared symbol. -/
def name? (d : Definition) : Symbol → Option String
  | .terminal t => d.terminals.get? t
  | .nonterminal n => d.nonterminals.get? n

/-- The symbol with the given name, nonterminals first; never the end of input. -/
def symbolNamed? (d : Definition) (name : String) : Option Symbol :=
  GrammarAnalysis.symbolNamed? d.terminals d.nonterminals name

/-- Adds a terminal without looking at its name. -/
def addTerminal (d : Definition) (name : String) : TerminalId × Definition :=
  (d.nextTerminal,
    { d with
      terminals := d.terminals.insert d.nextTerminal name
      nextTerminal := d.nextTerminal + 1 })

/-- Declares a terminal under a new name. -/
def declareTerminal (d : Definition) (name : String) :
    Except GrammarError (TerminalId × Definition) :=
  if d.declares name then .error (.duplicateSymbol name)
  else drawing d.nextTerminal (d.addTerminal name)

/-- Adds a nonterminal without looking at its name. -/
def addNonterminal (d : Definition) (name : String) : NonterminalId × Definition :=
  (d.nextNonterminal,
    { d with
      nonterminals := d.nonterminals.insert d.nextNonterminal name
      nextNonterminal := d.nextNonterminal + 1 })

/-- Declares a nonterminal under a new name. -/
def declareNonterminal (d : Definition) (name : String) :
    Except GrammarError (NonterminalId × Definition) :=
  if d.declares name then .error (.duplicateSymbol name)
  else drawing d.nextNonterminal (d.addNonterminal name)

/-- Adds a nonterminal named after `base`. -/
def freshNonterminal (d : Definition) (base : String) : NonterminalId × Definition :=
  d.addNonterminal (freshName d.names base)

/-- Declares a nonterminal named after `base`. -/
def declareFresh (d : Definition) (base : String) :
    Except GrammarError (NonterminalId × Definition) :=
  drawing d.nextNonterminal (d.freshNonterminal base)

/-- The number of the given rule, if it has been added before. -/
def ruleId? (d : Definition) (rule : Rule) : Option RuleId :=
  (d.rules.entries.find? fun entry => entry.2 = rule).map Prod.fst

/-- Gives the rule the next number. -/
def appendRule (d : Definition) (rule : Rule) : RuleId × Definition :=
  (d.nextRule,
    { d with rules := d.rules.insert d.nextRule rule, nextRule := d.nextRule + 1 })

/-- The rule as it is quoted in an error message. -/
def quote? (d : Definition) (rule : Rule) : Option String := do
  let head ← d.nonterminals.get? rule.head
  let body ← rule.body.mapM d.name?
  return head ++ " ->" ++ String.join (body.map (" " ++ ·))

/-- Adds a rule that has not been added before. -/
def addRule (d : Definition) (head : NonterminalId) (body : List Symbol) :
    Except GrammarError (RuleId × Definition) :=
  let rule : Rule := ⟨head, body⟩
  match d.ruleId? rule with
  | none => drawing d.nextRule (d.appendRule rule)
  | some _ =>
    match d.quote? rule with
    | some text => .error (.duplicateRule text)
    | none => .error .unnamedSymbol

/-- Adds a rule unless it has been added before; either way its number is returned. -/
def ensureRule (d : Definition) (head : NonterminalId) (body : List Symbol) :
    RuleId × Definition :=
  let rule : Rule := ⟨head, body⟩
  match d.ruleId? rule with
  | some id => (id, d)
  | none => d.appendRule rule

/-- Adds a rule unless it has been added before, and fails if it has to and there is no number
left; otherwise the number of the rule is returned. -/
def includeRule (d : Definition) (head : NonterminalId) (body : List Symbol) :
    Except GrammarError (RuleId × Definition) :=
  let rule : Rule := ⟨head, body⟩
  match d.ruleId? rule with
  | some id => .ok (id, d)
  | none => drawing d.nextRule (d.appendRule rule)

/-- Adds the rules that have not been added before, in order. -/
def ensureRules (d : Definition) (head : NonterminalId) (bodies : List (List Symbol)) :
    Definition :=
  bodies.foldl (fun d body => (d.ensureRule head body).2) d

/-- Whether a symbol is declared. -/
def declaresSymbol (d : Definition) : Symbol → Bool
  | .terminal t => d.terminals.contains t
  | .nonterminal n => d.nonterminals.contains n

/-- The symbols that `retain` may drop, in the order in which it decides on
them: all but the end of input and the start symbol. -/
def droppable (d : Definition) : List Symbol :=
  (d.terminals.keys.filter (· ≠ endOfInput)).map .terminal ++
    (d.nonterminals.keys.filter (some · ≠ d.start)).map .nonterminal

/-- Drops the symbols that `keep` rejects and every rule that mentions an
undeclared symbol afterwards.  The end of input and the start symbol stay. -/
def retain (d : Definition) (keep : Symbol → Bool) : Definition :=
  let kept : Definition :=
    { d with
      terminals := d.terminals.filterKeys fun t => t = endOfInput || keep (.terminal t)
      nonterminals :=
        d.nonterminals.filterKeys fun n => some n = d.start || keep (.nonterminal n) }
  { kept with
    rules := kept.rules.filter fun _ rule =>
      kept.nonterminals.contains rule.head && rule.body.all kept.declaresSymbol }

/-- Chooses the start symbol. -/
def setStart (d : Definition) (n : NonterminalId) : Definition := { d with start := some n }

/-- The defined grammar with the given start symbol. -/
def finish (d : Definition) (start : NonterminalId) : Grammar :=
  ⟨d.terminals, d.nonterminals, d.rules, start⟩

/-- The defined grammar.  Without a chosen start symbol the first declared
nonterminal is taken. -/
def toGrammar (d : Definition) : Except GrammarError Grammar :=
  match d.start.or d.nonterminals.keys.head? with
  | some start => .ok (d.finish start)
  | none => .error .empty

end Definition

namespace Grammar

/-- The definition with the symbols of this grammar, and no rules. -/
def toDefinition (g : Grammar) : Definition where
  terminals := g.terminals
  nonterminals := g.nonterminals
  rules := ∅
  start := some g.start
  nextTerminal := nextNumber g.terminals.keys
  nextNonterminal := nextNumber g.nonterminals.keys
  nextRule := 1

/-- A grammar over the symbols of this one, with the rules that `build` adds, as far as numbers
do not run out. -/
def rebuild (g : Grammar) (build : Definition → Definition) : Grammar :=
  let d := build g.toDefinition
  d.finish (d.start.getD g.start)

/-- The rebuilt grammar, if there are enough numbers for it. -/
def rebuild? (g : Grammar) (build : Definition → Definition) : Option Grammar :=
  if (build g.toDefinition).fits then some (g.rebuild build) else none

end Grammar

end GrammarAnalysis

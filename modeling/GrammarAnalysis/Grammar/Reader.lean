import GrammarAnalysis.Grammar.Definition
import GrammarAnalysis.Text.Split

/-!
# Reading a grammar from text

Each line that is not blank has the form `A -> a B | epsilon`: a head of one
character, an arrow, and alternatives separated by bars.  The heads are the
nonterminals; every other name is a terminal.  All lines are checked before
any symbol is declared, so a fault in the form of a later line is reported
before a rule that is given twice.
-/

namespace GrammarAnalysis

/-- A line of a grammar text: its head, and the text to the right of the arrow. -/
structure Production where
  head : Char
  alternatives : List Char
deriving DecidableEq, Repr

namespace Production

/-- The name that a grammar text uses for the empty sentence. -/
def epsilonName : String := "epsilon"

/-- The head as a symbol name. -/
def headName (production : Production) : String := production.head.toString

/-- The alternatives as lists of symbol names. -/
def bodies (production : Production) : List (List String) :=
  (Text.splitWhere (· = '|') production.alternatives).map fun alternative =>
    ((Text.words alternative).map String.ofList).filter (· ≠ epsilonName)

/-- Reads the line with the given number; a blank line holds no production. -/
def ofLine? (number : Nat) (line : List Char) : Except GrammarError (Option Production) :=
  if (Text.trim line).isEmpty then .ok none
  else
    match Text.splitArrows line with
    | [left, right] =>
      let head := Text.trim left
      if head = endOfInputName.toList then
        .error (.reservedSymbol number endOfInputName)
      else
        match head with
        | [c] =>
          if (Text.words right).contains endOfInputName.toList then
            .error (.reservedSymbol number endOfInputName)
          else .ok (some ⟨c, right⟩)
        | _ => .error (.malformedHead number (String.ofList head))
    | [] | [_] => .error (.missingArrow number)
    | _ => .error (.extraArrow number)

/-- Reads the numbered lines from top to bottom, up to the first fault. -/
def ofLines : List (List Char × Nat) → Except GrammarError (List Production)
  | [] => .ok []
  | (line, number) :: rest => do
    let production ← ofLine? number line
    let productions ← ofLines rest
    return production.toList ++ productions

end Production

namespace Definition

/-- Declares the heads as nonterminals, each once. -/
def declareHeads (d : Definition) : List String → Except GrammarError Definition
  | [] => .ok d
  | head :: heads =>
    if d.nonterminals.values.contains head then d.declareHeads heads
    else do
      let (_, d) ← d.declareNonterminal head
      d.declareHeads heads

/-- The symbol with the given name, which is declared as a terminal if it is new. -/
def resolve (d : Definition) (name : String) : Except GrammarError (Symbol × Definition) :=
  match d.symbolNamed? name with
  | some symbol => .ok (symbol, d)
  | none => do
    let (t, d) ← d.declareTerminal name
    return (.terminal t, d)

/-- The symbols with the given names. -/
def resolveAll (d : Definition) : List String → Except GrammarError (List Symbol × Definition)
  | [] => .ok ([], d)
  | name :: names => do
    let (symbol, d) ← d.resolve name
    let (symbols, d) ← d.resolveAll names
    return (symbol :: symbols, d)

/-- Adds a rule given by names.  Nothing is added if the head is no nonterminal. -/
def addNamedRule (d : Definition) (head : String) (body : List String) :
    Except GrammarError Definition :=
  match d.symbolNamed? head with
  | some (.nonterminal n) => do
    let (symbols, d) ← d.resolveAll body
    return (← d.addRule n symbols).2
  | _ => .ok d

/-- Adds the rules of the productions, in order. -/
def addProductions (d : Definition) (productions : List Production) :
    Except GrammarError Definition :=
  let rules := productions.flatMap fun production =>
    production.bodies.map fun body => (production.headName, body)
  rules.foldlM (fun d rule => d.addNamedRule rule.1 rule.2) d

end Definition

namespace Grammar

/-- The grammar of the productions; its start symbol is the first head. -/
def ofProductions (productions : List Production) : Except GrammarError Grammar :=
  if productions.isEmpty then .error .empty
  else do
    let d ← Definition.empty.declareHeads (productions.map Production.headName)
    let d ← d.addProductions productions
    d.toGrammar

/-- Reads a grammar. -/
def ofText (text : String) : Except GrammarError Grammar := do
  let productions ← Production.ofLines ((Text.lines text.toList).zipIdx 1)
  ofProductions productions

/-- Reads a grammar from the bytes of a file, or reports the reason why there are none. -/
def ofFile (contents : Except FileError ByteArray) : Except GrammarError Grammar :=
  match contents with
  | .error reason => .error (.unreadable reason)
  | .ok bytes =>
    match String.fromUTF8? bytes with
    | some text => ofText text
    | none => .error (.unreadable .notText)

end Grammar

end GrammarAnalysis

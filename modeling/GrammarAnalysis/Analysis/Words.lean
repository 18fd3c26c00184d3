import GrammarAnalysis.Analysis.Basic
import GrammarAnalysis.Derivation.Tree

/-!
# Deriving words

Each line of a text that is not blank is a word, written as the names of its
terminals.  Words are derived with the first table that has no conflict, in the
order LALR(1), LR(1), SLR(1), LL(1).
-/

namespace GrammarAnalysis

/-- A line of input, with its tokens. -/
inductive Word where
  | recognized (text : String) (tokens : List TerminalId)
  /-- `token` is the first token that names no terminal. -/
  | unrecognized (text : String) (token : String)
deriving DecidableEq, Repr

namespace Word

/-- The line as it was written, without the blanks at its ends. -/
def text : Word → String
  | recognized text _ => text
  | unrecognized text _ => text

/-- Finds the terminals with the given names, up to the first name that no
terminal has. -/
def resolve (g : Grammar) : List String → Except String (List TerminalId)
  | [] => .ok []
  | name :: names =>
    match g.terminalNamed? name with
    | none => .error name
    | some t => (resolve g names).map (t :: ·)

/-- The word on a line without blanks at its ends. -/
def ofLine (g : Grammar) (line : List Char) : Word :=
  match resolve g ((Text.words line).map String.ofList) with
  | .ok tokens => recognized (String.ofList line) tokens
  | .error token => unrecognized (String.ofList line) token

/-- The words of a text, one for each line that is not blank. -/
def ofText (g : Grammar) (text : String) : List Word :=
  (((Text.lines text.toList).map Text.trim).filter fun line => !line.isEmpty).map (ofLine g)

end Word

/-- A parser without conflicts. -/
inductive Parser where
  | predictive (table : PredictiveTable)
  | shiftReduce (table : ParseTable)

namespace Parser

/-- Parses a word. -/
def parse : Parser → List TerminalId → Option ParseOutcome
  | predictive table => table.parse
  | shiftReduce table => table.parse

/-- The grammar to which the rules of the derivations belong. -/
def grammar : Parser → Grammar
  | predictive table => table.grammar
  | shiftReduce table => table.grammar

/-- The name of the parser. -/
def name : Parser → String
  | predictive _ => "LL(1)"
  | shiftReduce table => table.kind.name

end Parser

/-- A word with the answer of the parser. -/
structure WordResult where
  word : Word
  /-- There is no outcome if the parser does not stop. -/
  outcome : Option ParseOutcome
  tree : Option ParseTree

namespace WordResult

/-- Parses a word.  A word with an unknown token is not recognized. -/
def ofWord (parser : Parser) (word : Word) : WordResult :=
  let outcome :=
    match word with
    | .recognized _ tokens => parser.parse tokens
    | .unrecognized _ _ => some .notRecognized
  let tree := do
    let outcome ← outcome
    let derivation ← outcome.derivation?
    ParseTree.ofDerivation? parser.grammar derivation
  ⟨word, outcome, tree⟩

/-- The lines below the word: what is wrong with it, or its derivation and its tree. -/
def body? (g : Grammar) (result : WordResult) : Option String :=
  match result.word, result.outcome with
  | .unrecognized _ token, _ => some ("unknown token `" ++ token ++ "'\n")
  | _, none => some "the parser does not stop\n"
  | _, some .notRecognized => some "not recognized\n"
  | _, some (.derived derivation) => do
    let rules ← derivation.text? g
    let tree ←
      match result.tree with
      | some tree => tree.outline? g 0
      | none => some ""
    return rules ++ "\n" ++ tree

/-- The word with the answer of the parser. -/
def text? (g : Grammar) (result : WordResult) : Option String :=
  (result.body? g).map fun body => "## " ++ result.word.text ++ "\n" ++ body

end WordResult

namespace Analysis

/-- The words of a text. -/
def words (analysis : Analysis) (text : String) : List Word := Word.ofText analysis.grammar text

/-- The parser of the first table without conflicts. -/
def parser? (analysis : Analysis) : Option Parser :=
  let tables := [analysis.lalr1, analysis.lr1, analysis.slr1].filterMap id
  match tables.find? ParseTable.isDeterministic with
  | some table => some (.shiftReduce table)
  | none => (analysis.ll1.filter PredictiveTable.isLL1).map .predictive

/-- Parses every word.  There are no results if every table has a conflict. -/
def derive? (analysis : Analysis) (words : List Word) : Option (List WordResult) :=
  analysis.parser?.map fun parser => words.map (WordResult.ofWord parser)

end Analysis

end GrammarAnalysis

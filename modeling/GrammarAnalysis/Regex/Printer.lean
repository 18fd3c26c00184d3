import GrammarAnalysis.Regex.Basic

/-!
# Printing regular expressions

Concatenation is written with blanks, union with bars and repetition with a
star.  Parentheses stand around a union inside a concatenation and around
everything but a symbol under a star.
-/

namespace GrammarAnalysis.Regex

/-- The text of the empty word. -/
def emptyWordText : String := "ε"

/-- Whether an expression is a union. -/
def isUnion : Regex → Bool
  | union _ => true
  | _ => false

/-- The text in parentheses if they are wanted. -/
def parenthesized (wanted : Bool) (text : String) : String :=
  if wanted then "(" ++ text ++ ")" else text

mutual

/-- The text of an expression, given the names of the terminals. -/
def text? (name? : TerminalId → Option String) : Regex → Option String
  | epsilon => some emptyWordText
  | symbol t => name? t
  | concat parts => (partTexts? name? parts).map (" ".intercalate ·)
  | union alternatives => (texts? name? alternatives).map (" | ".intercalate ·)
  | star (symbol t) => (name? t).map (· ++ "*")
  | star inner => (text? name? inner).map fun text => parenthesized true text ++ "*"

/-- The texts of some expressions. -/
def texts? (name? : TerminalId → Option String) : List Regex → Option (List String)
  | [] => some []
  | r :: rs => do
    let first ← text? name? r
    let rest ← texts? name? rs
    return first :: rest

/-- The texts of the parts of a concatenation. -/
def partTexts? (name? : TerminalId → Option String) : List Regex → Option (List String)
  | [] => some []
  | r :: rs => do
    let first ← text? name? r
    let rest ← partTexts? name? rs
    return parenthesized r.isUnion first :: rest

end

end GrammarAnalysis.Regex

import GrammarAnalysis.Text.Blank

/-!
# Cutting text into lines and words

Text is handled as a list of characters.  A line ends at a newline, which may
have a carriage return before it; a word is a longest run of characters that
are not blank.
-/

namespace GrammarAnalysis.Text

/-- Adds `c` in front of the first piece. -/
def consFirst {α : Type} (c : α) : List (List α) → List (List α)
  | [] => [[c]]
  | piece :: pieces => (c :: piece) :: pieces

/-- The pieces between the elements that satisfy `isCut`, empty pieces included. -/
def splitWhere {α : Type} (isCut : α → Bool) : List α → List (List α)
  | [] => [[]]
  | c :: rest =>
    if isCut c then [] :: splitWhere isCut rest else consFirst c (splitWhere isCut rest)

/-- Removes a carriage return at the end of a line. -/
def dropReturn (line : List Char) : List Char :=
  if line.getLast? = some '\r' then line.dropLast else line

/-- The lines of a text, without their ends.  Text after the last newline is a
line of its own unless it is empty. -/
def lines (text : List Char) : List (List Char) :=
  let pieces := splitWhere (· = '\n') text
  let last := pieces.getLast?.getD []
  pieces.dropLast.map dropReturn ++ (if last.isEmpty then [] else [last])

/-- The longest runs of characters that are not blank, in order. -/
def words (text : List Char) : List (List Char) :=
  (splitWhere isBlank text).filter fun word => !word.isEmpty

/-- The text without the blanks at both ends. -/
def trim (text : List Char) : List Char :=
  ((text.dropWhile isBlank).reverse.dropWhile isBlank).reverse

/-- The pieces between the arrows `->`, which are found from left to right. -/
def splitArrows : List Char → List (List Char)
  | [] => [[]]
  | '-' :: '>' :: rest => [] :: splitArrows rest
  | c :: rest => consFirst c (splitArrows rest)

end GrammarAnalysis.Text

import GrammarAnalysis.Regex.Basic
import Mathlib.Computability.Language

/-!
# The language of a regular expression

An expression denotes a set of words: a concatenation the words that are cut
into words of its parts, a union the words of its alternatives, a repetition the
words that are cut into any number of words of what is repeated.  The empty
concatenation denotes the empty word, the empty union no word at all.
-/

namespace GrammarAnalysis.Regex

mutual

/-- The words that an expression denotes. -/
def language : Regex → Language TerminalId
  | epsilon => 1
  | symbol t => {[t]}
  | concat parts => chainLanguage parts
  | union alternatives => choiceLanguage alternatives
  | star inner => KStar.kstar (language inner)

/-- The words that are cut into words of the expressions, in order. -/
def chainLanguage : List Regex → Language TerminalId
  | [] => 1
  | r :: rs => language r * chainLanguage rs

/-- The words of any of the expressions. -/
def choiceLanguage : List Regex → Language TerminalId
  | [] => 0
  | r :: rs => language r + choiceLanguage rs

end

@[simp] theorem language_epsilon : epsilon.language = 1 := by rw [language]

@[simp] theorem language_symbol (t : TerminalId) : (symbol t).language = {[t]} := by rw [language]

@[simp] theorem language_concat (parts : List Regex) :
    (concat parts).language = chainLanguage parts := by rw [language]

@[simp] theorem language_union (alternatives : List Regex) :
    (union alternatives).language = choiceLanguage alternatives := by rw [language]

@[simp] theorem language_star (inner : Regex) :
    (star inner).language = KStar.kstar inner.language := by rw [language]

@[simp] theorem chainLanguage_nil : chainLanguage [] = 1 := by rw [chainLanguage]

@[simp] theorem chainLanguage_cons (r : Regex) (rs : List Regex) :
    chainLanguage (r :: rs) = r.language * chainLanguage rs := by rw [chainLanguage]

@[simp] theorem chainLanguage_append (rs ss : List Regex) :
    chainLanguage (rs ++ ss) = chainLanguage rs * chainLanguage ss := by
  induction rs with
  | nil => simp
  | cons r rs ih => simp [ih, mul_assoc]

@[simp] theorem choiceLanguage_nil : choiceLanguage [] = 0 := by rw [choiceLanguage]

@[simp] theorem choiceLanguage_cons (r : Regex) (rs : List Regex) :
    choiceLanguage (r :: rs) = r.language + choiceLanguage rs := by rw [choiceLanguage]

theorem mem_choiceLanguage {rs : List Regex} {word : List TerminalId} :
    word ∈ choiceLanguage rs ↔ ∃ r ∈ rs, word ∈ r.language := by
  induction rs with
  | nil => simp [Language.notMem_zero]
  | cons r rs ih => simp [Language.mem_add, ih]

end GrammarAnalysis.Regex

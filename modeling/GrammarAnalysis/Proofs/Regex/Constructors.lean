import GrammarAnalysis.Proofs.Regex.Matching
import GrammarAnalysis.Proofs.Regex.Simplification

/-!
# The constructors that simplify, in terms of words

That the simplifying constructors keep the language is an equation between languages.
Here the language of a list of parts is brought into the form of a product, and what a
simplified expression matches is told from what its parts match.  The parts are any
expressions, those that no constructor would have left as they are included.
-/

namespace GrammarAnalysis.Regex

open Computability

/-- The language of a list of parts is the product of their languages, in order. -/
theorem chainLanguage_eq_prod (parts : List Regex) :
    chainLanguage parts = (parts.map language).prod := by
  induction parts with
  | nil => rw [chainLanguage_nil, List.map_nil, List.prod_nil]
  | cons r rs ih => rw [chainLanguage_cons, List.map_cons, List.prod_cons, ih]

/-- A word of a list of parts is cut into one word for each part. -/
theorem mem_chainLanguage {parts : List Regex} {word : List TerminalId} :
    word ∈ chainLanguage parts ↔
      ∃ pieces, List.Forall₂ (fun r piece => piece ∈ r.language) parts pieces ∧
        pieces.flatten = word := by
  constructor
  · intro hword
    induction parts generalizing word with
    | nil =>
        rw [chainLanguage_nil, Language.mem_one] at hword
        exact ⟨[], .nil, hword.symm⟩
    | cons r rs ih =>
        rw [chainLanguage_cons] at hword
        obtain ⟨here, hhere, rest, hrest, rfl⟩ := Language.mem_mul.mp hword
        obtain ⟨pieces, hpieces, hflat⟩ := ih hrest
        refine ⟨here :: pieces, .cons hhere hpieces, ?_⟩
        rw [List.flatten_cons, hflat]
  · rintro ⟨pieces, hpieces, rfl⟩
    induction hpieces with
    | nil =>
        rw [chainLanguage_nil]
        exact Language.nil_mem_one
    | cons hhere _ ih =>
        rw [chainLanguage_cons, List.flatten_cons]
        exact Language.append_mem_mul hhere ih

/-- The concatenation of a list of any length denotes the product of the languages of its parts,
and it matches the words that are cut into one match of each part, in order. The union of two
expressions denotes the words of both, and it matches what either matches. The repetition of an
expression denotes the Kleene closure, and it matches the words that are cut into any number of
matches. -/
theorem constructors_exact :
    (∀ parts : List Regex, (concatAll parts).language = (parts.map language).prod ∧
      ∀ word, (concatAll parts).isMatch word = true ↔
        ∃ pieces, List.Forall₂ (fun r piece => r.isMatch piece = true) parts pieces ∧
          pieces.flatten = word) ∧
    (∀ r s : Regex, (r.either s).language = r.language + s.language ∧
      ∀ word, (r.either s).isMatch word = (r.isMatch word || s.isMatch word)) ∧
    ∀ r : Regex, r.repeated.language = r.language∗ ∧
      ∀ word, r.repeated.isMatch word = true ↔
        ∃ pieces : List (List TerminalId), (∀ piece ∈ pieces, r.isMatch piece = true) ∧
          pieces.flatten = word := by
  refine ⟨fun parts => ⟨?_, fun word => ?_⟩, fun r s => ⟨language_either r s, fun word => ?_⟩,
    fun r => ⟨language_repeated r, fun word => ?_⟩⟩
  · rw [language_concatAll, chainLanguage_eq_prod]
  · rw [isMatch_iff_mem_language, language_concatAll, mem_chainLanguage]
    simp only [isMatch_iff_mem_language]
  · rw [Bool.eq_iff_iff, Bool.or_eq_true, isMatch_iff_mem_language, isMatch_iff_mem_language,
      isMatch_iff_mem_language, language_either, Language.mem_add]
  · rw [isMatch_iff_mem_language, language_repeated, Language.mem_kstar]
    simp only [isMatch_iff_mem_language]
    constructor
    · rintro ⟨pieces, hword, hpieces⟩
      exact ⟨pieces, hpieces, hword.symm⟩
    · rintro ⟨pieces, hpieces, hword⟩
      exact ⟨pieces, hword.symm, hpieces⟩

end GrammarAnalysis.Regex

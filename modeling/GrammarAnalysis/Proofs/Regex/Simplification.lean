import GrammarAnalysis.Regex.Language

/-!
# Simplification keeps the language

The constructors that simplify denote what the plain ones denote: flattening,
dropping the empty word and dropping repetitions do not change the words.
-/

namespace GrammarAnalysis.Regex

open Computability

theorem mem_language_symbol {t : TerminalId} {word : List TerminalId} :
    word ∈ (symbol t).language ↔ word = [t] := by
  rw [language_symbol]
  exact Set.mem_singleton_iff

/-! ## Concatenations -/

theorem chainLanguage_factors (r : Regex) : chainLanguage r.factors = r.language := by
  cases r <;> simp [factors]

theorem chainLanguage_flatMap_factors (parts : List Regex) :
    chainLanguage (parts.flatMap factors) = chainLanguage parts := by
  induction parts with
  | nil => rfl
  | cons r rs ih =>
      rw [List.flatMap_cons, chainLanguage_append, chainLanguage_factors, ih, chainLanguage_cons]

@[simp] theorem language_concatAll (parts : List Regex) :
    (concatAll parts).language = chainLanguage parts := by
  rw [← chainLanguage_flatMap_factors parts, concatAll]
  cases parts.flatMap factors with
  | nil => simp
  | cons r rs =>
      cases rs with
      | nil => simp
      | cons s rs => simp

/-! ## Unions -/

theorem mem_choiceLanguage_branches {r : Regex} {word : List TerminalId} :
    (∃ s ∈ r.branches, word ∈ s.language) ↔ word ∈ r.language := by
  cases r <;> simp [branches, mem_choiceLanguage]

theorem mem_withoutRepeats {known rs : List Regex} {s : Regex} :
    s ∈ withoutRepeats known rs ↔ s ∈ known ∨ s ∈ rs := by
  induction rs generalizing known with
  | nil => simp [withoutRepeats]
  | cons r rs ih =>
      rw [withoutRepeats, ih, List.mem_cons]
      split
      · next hr =>
        constructor
        · exact Or.imp_right Or.inr
        · rintro (h | rfl | h)
          · exact Or.inl h
          · exact Or.inl hr
          · exact Or.inr h
      · rw [List.mem_append, List.mem_singleton, or_assoc]

@[simp] theorem language_either (r s : Regex) :
    (r.either s).language = r.language + s.language := by
  have hchoice : (r.either s).language =
      choiceLanguage (withoutRepeats [] (r.branches ++ s.branches)) := by
    rw [either]
    cases withoutRepeats [] (r.branches ++ s.branches) with
    | nil => rw [language_union]
    | cons t ts =>
        cases ts with
        | nil => simp
        | cons u ts => rw [language_union]
  ext word
  rw [hchoice, mem_choiceLanguage, Language.mem_add, ← mem_choiceLanguage_branches,
    ← mem_choiceLanguage_branches (r := s)]
  simp only [mem_withoutRepeats, List.not_mem_nil, false_or, List.mem_append, or_and_right,
    exists_or]

/-! ## Repetitions -/

@[simp] theorem language_repeated (r : Regex) :
    r.repeated.language = KStar.kstar r.language := by
  cases r <;> simp [repeated]

/-! ## Expressions that may be missing -/

/-- The words of an expression that may be missing; a missing one has no word. -/
def optionLanguage (found : Option Regex) : Language TerminalId :=
  {word | ∃ r, found = some r ∧ word ∈ r.language}

@[simp] theorem optionLanguage_none : optionLanguage none = 0 := by
  ext word
  constructor
  · rintro ⟨r, hr, -⟩
    contradiction
  · exact False.elim

@[simp] theorem optionLanguage_some (r : Regex) : optionLanguage (some r) = r.language := by
  ext word
  constructor
  · rintro ⟨s, hs, hword⟩
    rwa [Option.some.inj hs]
  · intro hword
    exact ⟨r, rfl, hword⟩

/-- A missing loop is gone around no times. -/
theorem chainLanguage_repeated (found : Option Regex) :
    chainLanguage (found.map repeated).toList = (optionLanguage found)∗ := by
  cases found <;> simp

end GrammarAnalysis.Regex

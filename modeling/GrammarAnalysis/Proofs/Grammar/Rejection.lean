import GrammarAnalysis.Proofs.Grammar.Acceptance

/-!
# Why texts are refused

A text is refused for the first of its lines that has a fault, or else because there are
not enough numbers for its heads, or for the first rule that cannot be added to those
before it.  The name of the end of
input is a fault of its line only if blanks stand around it.  Between bars it is
found when the rules are added, and reported as a symbol that has been declared
before, without the number of the line (`Grammar.rejection_exact`).
-/

namespace GrammarAnalysis

open Text

/-! ## The name of the end of input between bars -/

namespace Production

/-- Whether a line is written as a production that has the name of the end of input, but always
next to a bar without a blank in between. -/
def HidesEndOfInput (line : List Char) : Prop :=
  ∃ production : Production, production.IsWrittenOn line ∧
    endOfInputName.toList ∈ alternativeWords production.alternatives ∧
    endOfInputName.toList ∉ words production.alternatives

variable {names : List Char → List (List Char)} {line : List Char} {number : Nat}
  {production : Production}

theorem HasFault.number_eq {number' : Nat} {name : String}
    (h : HasFault names line number (.reservedSymbol number' name)) : number' = number := by
  cases h <;> rfl

/-- More names make no fault go away. -/
theorem HasFault.imp {names' : List Char → List (List Char)} (h : HasFault names line number error)
    (himp : ∀ production : Production, production.IsWrittenOn line →
      endOfInputName.toList ∈ names production.alternatives →
        endOfInputName.toList ∈ names' production.alternatives) :
    HasFault names' line number error := by
  cases h with
  | missingArrow not_blank none => exact .missingArrow not_blank none
  | extraArrow many => exact .extraArrow many
  | reservedHead cuts head_eq => exact .reservedHead cuts head_eq
  | malformedHead cuts head_ne length_ne => exact .malformedHead cuts head_ne length_ne
  | reservedName written mem => exact .reservedName written (himp _ written mem)

theorem IsFaulty.alternativeWords (h : IsFaulty words line) : IsFaulty alternativeWords line := by
  obtain ⟨number, error, hfault⟩ := h
  exact ⟨number, error, hfault.imp fun _ _ hmem =>
    mem_alternativeWords_of_mem_words hmem (by decide)⟩

/-- A fault that names between bars make is one among words unless the name is hidden. -/
theorem HasFault.words_iff (h : HasFault alternativeWords line number error) :
    HasFault words line number error ↔ ¬HidesEndOfInput line := by
  constructor
  · rintro hfault ⟨production, hwritten, -, hunused⟩
    exact hunused (hfault.of_isWrittenOn hwritten).1
  · intro hfree
    refine h.imp fun production hwritten hmem => ?_
    by_contra hunused
    exact hfree ⟨production, hwritten, hmem, hunused⟩

theorem AreRefused.ne_reservedSymbol {name : String}
    (h : AreRefused productions error) : error ≠ .reservedSymbol number name := by
  rintro rfl
  cases h with
  | rule fit rules_eq added refuses => cases refuses

end Production

namespace Grammar

variable {text : String} {error : GrammarError}

theorem ofText_of_isFirstFault
    (h : Production.IsFirstFault words (lines text.toList) error) :
    ofText text = .error error := by
  rw [ofText, h.ofLines_eq]
  rfl

theorem ofText_of_areRefused {productions : List Production}
    (hwritten : Production.AreWrittenOn productions (lines text.toList))
    (hunused : ∀ production ∈ productions,
      endOfInputName.toList ∉ words production.alternatives)
    (h : Production.AreRefused productions error) : ofText text = .error error := by
  rw [ofText, Production.ofLines_of_areWrittenOn hwritten hunused]
  exact h.ofProductions_eq hwritten.endOfInput_not_mem_heads

/-- A text is refused either for its first line with a fault, where names are what stands between
blanks, or for the first of its rules that cannot be added. -/
theorem ofText_eq_error_iff :
    ofText text = .error error ↔
      Production.IsFirstFault words (lines text.toList) error ∨
      ∃ productions, Production.AreWrittenOn productions (lines text.toList) ∧
        (∀ production ∈ productions, endOfInputName.toList ∉ words production.alternatives) ∧
        Production.AreRefused productions error := by
  constructor
  · intro h
    rcases Production.isFirstFault_or_areWrittenOn words (lines text.toList) with
      ⟨other, hfault⟩ | ⟨productions, hwritten, hunused⟩
    · rw [ofText_of_isFirstFault hfault, Except.error.injEq] at h
      exact Or.inl (h ▸ hfault)
    · refine Or.inr ⟨productions, hwritten, hunused, ?_⟩
      rcases Production.defineGrammar_or_areRefused productions with
        ⟨hdefine, hnumbers⟩ | ⟨other, hrefused⟩
      · obtain ⟨g, hg, -⟩ := exists_ofText_of_areWrittenOn hwritten hdefine hnumbers
        rw [hg] at h
        contradiction
      · rw [ofText_of_areRefused hwritten hunused hrefused, Except.error.injEq] at h
        exact h ▸ hrefused
  · rintro (hfault | ⟨productions, hwritten, hunused, hrefused⟩)
    · exact ofText_of_isFirstFault hfault
    · exact ofText_of_areRefused hwritten hunused hrefused

/-- Let a line be the first one with a fault, where names are what stands between bars and blanks.
The text is refused for this fault unless the fault is the name of the end of input and bars hide
it.  What any text is refused for is the first fault where names are what stands between blanks,
or else that numbers run out for its heads, or the first rule that cannot be added. -/
theorem rejection_exact (text : String) :
    (∀ before line after error, lines text.toList = before ++ line :: after →
      (∀ earlier ∈ before, ¬Production.IsFaulty alternativeWords earlier) →
      Production.HasFault alternativeWords line (before.length + 1) error →
        (ofText text = .error error ↔ ¬Production.HidesEndOfInput line)) ∧
    ∀ error, ofText text = .error error ↔
      Production.IsFirstFault words (lines text.toList) error ∨
      ∃ productions, Production.AreWrittenOn productions (lines text.toList) ∧
        (∀ production ∈ productions, endOfInputName.toList ∉ words production.alternatives) ∧
        Production.AreRefused productions error := by
  refine ⟨fun before line after error hlines hbefore hfault => ?_, fun _ => ofText_eq_error_iff⟩
  constructor
  · rintro h ⟨production, hwritten, hmem, hunused⟩
    obtain ⟨-, rfl⟩ := hfault.of_isWrittenOn hwritten
    rcases ofText_eq_error_iff.mp h with
      ⟨before', line', after', hlines', -, hfault'⟩ | ⟨productions, -, -, hrefused⟩
    · -- the error has the number of the line, so this is the line of the other fault
      have hlength : before.length = before'.length := Nat.succ.inj hfault'.number_eq
      obtain ⟨rfl, hrest⟩ := List.append_inj (hlines.symm.trans hlines') hlength
      obtain ⟨rfl, -⟩ := List.cons.inj hrest
      exact hunused (hfault'.of_isWrittenOn hwritten).1
    · exact hrefused.ne_reservedSymbol rfl
  · intro hfree
    exact ofText_of_isFirstFault ⟨before, line, after, hlines,
      fun earlier hmem hfaulty => hbefore earlier hmem hfaulty.alternativeWords,
      hfault.words_iff.mpr hfree⟩

/-- Bars without blanks hide nothing when blanks stand around the name of the end of input. -/
theorem rejection_exact_free :
    let line := "T -> a| $ |b".toList
    Production.HasFault alternativeWords line 2 (.reservedSymbol 2 endOfInputName) ∧
      ¬Production.HidesEndOfInput line ∧
        ofText "S -> a|b\nT -> a| $ |b" = .error (.reservedSymbol 2 endOfInputName) := by
  intro line
  have hearlier : (⟨'S', " a|b".toList⟩ : Production).IsWrittenOn "S -> a|b".toList :=
    ⟨⟨"S ".toList, ⟨rfl, by decide⟩, by decide⟩, by decide⟩
  have hfirst : ¬Production.IsFaulty alternativeWords "S -> a|b".toList :=
    Production.not_isFaulty_of_isWrittenOn hearlier (by decide)
  have hwritten : (⟨'T', " a| $ |b".toList⟩ : Production).IsWrittenOn line :=
    ⟨⟨"T ".toList, ⟨rfl, by decide⟩, by decide⟩, by decide⟩
  have hfault : Production.HasFault alternativeWords line 2 (.reservedSymbol 2 endOfInputName) :=
    .reservedName hwritten (by decide)
  have hfree : ¬Production.HidesEndOfInput line :=
    hfault.words_iff.mp (.reservedName hwritten (by decide))
  refine ⟨hfault, hfree, ?_⟩
  exact ((rejection_exact "S -> a|b\nT -> a| $ |b").1 ["S -> a|b".toList] line [] _
    (by decide +kernel) (by simpa using hfirst) hfault).mpr hfree

/-- A name behind a bar is found when the symbols are declared, and the line is not reported. -/
theorem ofText_endOfInput_behind_bar :
    Production.IsFirstFault alternativeWords (lines "S -> a|$".toList)
        (.reservedSymbol 1 endOfInputName) ∧
      ofText "S -> a|$" = .error (.duplicateSymbol endOfInputName) := by
  have hlines : lines "S -> a|$".toList = ["S -> a|$".toList] := by decide +kernel
  have hwritten : (⟨'S', " a|$".toList⟩ : Production).IsWrittenOn "S -> a|$".toList :=
    ⟨⟨"S ".toList, ⟨rfl, by decide⟩, by decide⟩, by decide⟩
  refine ⟨⟨[], "S -> a|$".toList, [], hlines, by simp, .reservedName hwritten (by decide)⟩, ?_⟩
  decide +kernel

end Grammar

end GrammarAnalysis

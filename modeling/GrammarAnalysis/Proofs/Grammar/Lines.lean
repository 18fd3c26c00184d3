import Mathlib.Data.List.Forall2
import GrammarAnalysis.Proofs.Grammar.Plain
import GrammarAnalysis.Proofs.Text.Cuts

/-!
# Faulty lines and productions

A line of a grammar text is blank, has a fault (`Production.HasFault`) or is
written as a production (`Production.IsWrittenOn`).  Which lines have a fault
depends on what counts as a name of a body: reading looks for the name of the
end of input among the words right of the arrow, before it looks for bars.
Lines are read from top to bottom, so the first fault decides on the error.
-/

namespace GrammarAnalysis

open Text

namespace Production

/-- Whether a line is written as this production: behind its only arrow stand the alternatives,
and what is in front of it is, but for blanks, the head. -/
structure IsWrittenOn (production : Production) (line : List Char) : Prop where
  exists_left : ∃ left, CutsAtArrow line left production.alternatives ∧
    trim left = [production.head]
  head_ne : [production.head] ≠ endOfInputName.toList

/-- What is wrong with a line that is not blank, and how it is reported under the number of the
line.  Each fault is one only if those before it are not there. -/
inductive HasFault (names : List Char → List (List Char)) (line : List Char) (number : Nat) :
    GrammarError → Prop
  | missingArrow (not_blank : trim line ≠ []) (none : arrowCount line = 0) :
      HasFault names line number (.missingArrow number)
  | extraArrow (many : 1 < arrowCount line) : HasFault names line number (.extraArrow number)
  | reservedHead {left right : List Char} (cuts : CutsAtArrow line left right)
      (head_eq : trim left = endOfInputName.toList) :
      HasFault names line number (.reservedSymbol number endOfInputName)
  | malformedHead {left right : List Char} (cuts : CutsAtArrow line left right)
      (head_ne : trim left ≠ endOfInputName.toList) (length_ne : (trim left).length ≠ 1) :
      HasFault names line number (.malformedHead number (String.ofList (trim left)))
  | reservedName {production : Production} (written : production.IsWrittenOn line)
      (mem : endOfInputName.toList ∈ names production.alternatives) :
      HasFault names line number (.reservedSymbol number endOfInputName)

/-- Whether there is a fault in a line. -/
def IsFaulty (names : List Char → List (List Char)) (line : List Char) : Prop :=
  ∃ number error, HasFault names line number error

/-- Whether this is the fault of the first of the given lines that has one.  The lines are
numbered from 1. -/
def IsFirstFault (names : List Char → List (List Char)) (lines : List (List Char))
    (error : GrammarError) : Prop :=
  ∃ before line after, lines = before ++ line :: after ∧
    (∀ earlier ∈ before, ¬IsFaulty names earlier) ∧
      HasFault names line (before.length + 1) error

variable {line : List Char} {number : Nat} {error : GrammarError} {production : Production}
  {names : List Char → List (List Char)}

theorem HasFault.isFaulty (h : HasFault names line number error) : IsFaulty names line :=
  ⟨number, error, h⟩

theorem IsWrittenOn.unique {other : Production} (h : production.IsWrittenOn line)
    (h' : other.IsWrittenOn line) : production = other := by
  obtain ⟨left, hcuts, hhead⟩ := h.exists_left
  obtain ⟨left', hcuts', hhead'⟩ := h'.exists_left
  obtain ⟨rfl, hright⟩ := hcuts.unique hcuts'
  rw [hhead, List.singleton_inj] at hhead'
  cases production
  cases other
  simp_all

/-- A line that is written as a production can have only one fault. -/
theorem HasFault.of_isWrittenOn (h : HasFault names line number error)
    (hwritten : production.IsWrittenOn line) :
    endOfInputName.toList ∈ names production.alternatives ∧
      error = .reservedSymbol number endOfInputName := by
  obtain ⟨left, hcuts, hhead⟩ := hwritten.exists_left
  have honce := hcuts.once
  cases h with
  | missingArrow not_blank none => omega
  | extraArrow many => omega
  | @reservedHead left' right' cuts head_eq =>
      obtain ⟨rfl, -⟩ := cuts.unique hcuts
      exact absurd (hhead.symm.trans head_eq) hwritten.head_ne
  | @malformedHead left' right' cuts head_ne length_ne =>
      obtain ⟨rfl, -⟩ := cuts.unique hcuts
      exact absurd (congrArg List.length hhead) length_ne
  | @reservedName other written mem => exact ⟨written.unique hwritten ▸ mem, rfl⟩

theorem not_isFaulty_of_isWrittenOn (hwritten : production.IsWrittenOn line)
    (hunused : endOfInputName.toList ∉ names production.alternatives) : ¬IsFaulty names line :=
  fun ⟨_, _, hfault⟩ => hunused (hfault.of_isWrittenOn hwritten).1

/-- Whether there is a fault in a line does not depend on its number. -/
theorem IsFaulty.exists_hasFault (h : IsFaulty names line) (number : Nat) :
    ∃ error, HasFault names line number error := by
  obtain ⟨_, _, hfault⟩ := h
  cases hfault with
  | missingArrow not_blank none => exact ⟨_, .missingArrow not_blank none⟩
  | extraArrow many => exact ⟨_, .extraArrow many⟩
  | reservedHead cuts head_eq => exact ⟨_, .reservedHead cuts head_eq⟩
  | malformedHead cuts head_ne length_ne => exact ⟨_, .malformedHead cuts head_ne length_ne⟩
  | reservedName written mem => exact ⟨_, .reservedName written mem⟩

/-! ## Reading one line -/

theorem ofLine?_of_blank (h : trim line = []) : ofLine? number line = .ok none := by
  rw [ofLine?, if_pos (by simpa using h)]

theorem ofLine?_of_cuts {left right : List Char} (h : CutsAtArrow line left right) :
    ofLine? number line =
      if trim left = endOfInputName.toList then .error (.reservedSymbol number endOfInputName)
      else
        match trim left with
        | [c] =>
          if (words right).contains endOfInputName.toList then
            .error (.reservedSymbol number endOfInputName)
          else .ok (some ⟨c, right⟩)
        | _ => .error (.malformedHead number (String.ofList (trim left))) := by
  have hpieces := h.splitArrows_eq
  rw [ofLine?, if_neg (by simpa using h.trim_ne_nil)]
  generalize splitArrows line = pieces at hpieces
  subst hpieces
  rfl

theorem ofLine?_of_hasFault (h : HasFault words line number error) :
    ofLine? number line = .error error := by
  cases h with
  | missingArrow not_blank none =>
      rw [ofLine?, if_neg (by simpa using not_blank), splitArrows_of_arrowCount_eq_zero none]
  | extraArrow many =>
      have hne : trim line ≠ [] := trim_ne_nil_of_arrowCount_ne_zero (by omega)
      have hlength := length_splitArrows line
      rw [ofLine?, if_neg (by simpa using hne)]
      split
      · next hpieces => simp [hpieces] at hlength; omega
      · next hpieces => simp [hpieces] at hlength
      · next hpieces => simp [hpieces] at hlength; omega
      · rfl
  | reservedHead cuts head_eq => rw [ofLine?_of_cuts cuts, if_pos head_eq]
  | malformedHead cuts head_ne length_ne =>
      rw [ofLine?_of_cuts cuts, if_neg head_ne]
      split
      · next c hhead => exact absurd (by rw [hhead]; rfl) length_ne
      · rfl
  | reservedName written mem =>
      obtain ⟨left, hcuts, hhead⟩ := written.exists_left
      rw [ofLine?_of_cuts hcuts, if_neg (hhead ▸ written.head_ne), hhead]
      exact if_pos (by simpa using mem)

theorem ofLine?_of_isWrittenOn (h : production.IsWrittenOn line)
    (hunused : endOfInputName.toList ∉ words production.alternatives) :
    ofLine? number line = .ok (some production) := by
  obtain ⟨left, hcuts, hhead⟩ := h.exists_left
  rw [ofLine?_of_cuts hcuts, if_neg (hhead ▸ h.head_ne), hhead]
  exact if_neg (by simpa using hunused)

/-- A line is blank, has a fault or is written as a production. -/
theorem blank_or_hasFault_or_isWrittenOn (names : List Char → List (List Char)) (line : List Char)
    (number : Nat) :
    trim line = [] ∨ (∃ error, HasFault names line number error) ∨
      ∃ production : Production, production.IsWrittenOn line ∧
        endOfInputName.toList ∉ names production.alternatives := by
  by_cases hblank : trim line = []
  · exact Or.inl hblank
  refine Or.inr ?_
  rcases Nat.lt_trichotomy (arrowCount line) 1 with hnone | honce | hmany
  · exact Or.inl ⟨_, .missingArrow hblank (by omega)⟩
  · obtain ⟨left, right, hcuts⟩ := exists_cutsAtArrow honce
    by_cases hend : trim left = endOfInputName.toList
    · exact Or.inl ⟨_, .reservedHead hcuts hend⟩
    by_cases hlength : (trim left).length = 1
    · obtain ⟨c, hhead⟩ := List.length_eq_one_iff.mp hlength
      have hwritten : (⟨c, right⟩ : Production).IsWrittenOn line :=
        ⟨⟨left, hcuts, hhead⟩, hhead ▸ hend⟩
      by_cases hmem : endOfInputName.toList ∈ names right
      · exact Or.inl ⟨_, .reservedName hwritten hmem⟩
      · exact Or.inr ⟨_, hwritten, hmem⟩
    · exact Or.inl ⟨_, .malformedHead hcuts hend hlength⟩
  · exact Or.inl ⟨_, .extraArrow hmany⟩

theorem ofLine?_eq_error_iff :
    ofLine? number line = .error error ↔ HasFault words line number error := by
  refine ⟨fun h => ?_, ofLine?_of_hasFault⟩
  rcases blank_or_hasFault_or_isWrittenOn words line number with
    hblank | ⟨found, hfault⟩ | ⟨production, hwritten, hunused⟩
  · rw [ofLine?_of_blank hblank] at h
    contradiction
  · rw [ofLine?_of_hasFault hfault, Except.error.injEq] at h
    exact h ▸ hfault
  · rw [ofLine?_of_isWrittenOn hwritten hunused] at h
    contradiction

/-! ## Reading the lines from top to bottom -/

/-- The lines that are not blank. -/
def filledLines (lines : List (List Char)) : List (List Char) :=
  lines.filter fun line => !(trim line).isEmpty

/-- Whether the lines that are not blank are written as these productions, one after the other. -/
def AreWrittenOn (productions : List Production) (lines : List (List Char)) : Prop :=
  List.Forall₂ IsWrittenOn productions (filledLines lines)

theorem filledLines_cons_of_blank {lines : List (List Char)} (h : trim line = []) :
    filledLines (line :: lines) = filledLines lines :=
  List.filter_cons_of_neg (by simp [h])

theorem filledLines_cons {lines : List (List Char)} (h : trim line ≠ []) :
    filledLines (line :: lines) = line :: filledLines lines :=
  List.filter_cons_of_pos (by simpa using h)

theorem IsWrittenOn.trim_ne_nil (h : production.IsWrittenOn line) : trim line ≠ [] := by
  obtain ⟨left, hcuts, -⟩ := h.exists_left
  exact hcuts.trim_ne_nil

/-- Each of the productions is written on some line. -/
theorem AreWrittenOn.exists_isWrittenOn {productions : List Production} {lines : List (List Char)}
    (h : AreWrittenOn productions lines) (hmem : production ∈ productions) :
    ∃ line, production.IsWrittenOn line := by
  obtain ⟨i, hi, rfl⟩ := List.mem_iff_getElem.mp hmem
  have hlength : i < (filledLines lines).length := h.length_eq ▸ hi
  exact ⟨_, (List.forall₂_iff_get.mp h).2 i hi hlength⟩

/-- All lines are read if the productions they are written as do not have the name of the end of
input among their words. -/
theorem ofLines_of_areWrittenOn {productions : List Production} {lines : List (List Char)}
    (h : AreWrittenOn productions lines)
    (hunused : ∀ production ∈ productions,
      endOfInputName.toList ∉ words production.alternatives) (first : Nat) :
    ofLines (lines.zipIdx first) = .ok productions := by
  induction lines generalizing productions first with
  | nil =>
      rw [AreWrittenOn, filledLines, List.filter_nil, List.forall₂_nil_right_iff] at h
      rw [h]
      rfl
  | cons line lines ih =>
      rw [List.zipIdx_cons, ofLines]
      by_cases hblank : trim line = []
      · rw [AreWrittenOn, filledLines_cons_of_blank hblank] at h
        simp only [ofLine?_of_blank hblank, bind, Except.bind, ih h hunused (first + 1)]
        rfl
      · rw [AreWrittenOn, filledLines_cons hblank, List.forall₂_cons_right_iff] at h
        obtain ⟨production, others, hwritten, hothers, rfl⟩ := h
        rw [List.forall_mem_cons] at hunused
        simp only [ofLine?_of_isWrittenOn hwritten hunused.1, bind, Except.bind,
          ih hothers hunused.2 (first + 1)]
        rfl

/-- The lines are read up to the first fault. -/
theorem ofLines_of_hasFault {before after : List (List Char)}
    (hbefore : ∀ earlier ∈ before, ¬IsFaulty words earlier) {first : Nat}
    (h : HasFault words line (before.length + first) error) :
    ofLines ((before ++ line :: after).zipIdx first) = .error error := by
  induction before generalizing first with
  | nil =>
      rw [List.length_nil, Nat.zero_add] at h
      rw [List.nil_append, List.zipIdx_cons, ofLines, ofLine?_of_hasFault h]
      rfl
  | cons earlier before ih =>
      rw [List.forall_mem_cons] at hbefore
      rw [List.length_cons, Nat.add_right_comm, Nat.add_assoc] at h
      obtain ⟨read, hread⟩ : ∃ read, ofLine? first earlier = .ok read := by
        cases hline : ofLine? first earlier with
        | ok read => exact ⟨read, rfl⟩
        | error found => exact absurd (ofLine?_eq_error_iff.mp hline).isFaulty hbefore.1
      simp only [List.cons_append, List.zipIdx_cons, ofLines, hread, bind, Except.bind,
        ih hbefore.2 h]

/-- Lines without a fault that are not blank are written as productions. -/
theorem exists_areWrittenOn {names : List Char → List (List Char)} {lines : List (List Char)}
    (h : ∀ line ∈ lines, ¬IsFaulty names line) :
    ∃ productions, AreWrittenOn productions lines ∧
      ∀ production ∈ productions, endOfInputName.toList ∉ names production.alternatives := by
  induction lines with
  | nil => exact ⟨[], .nil, by simp⟩
  | cons line lines ih =>
      rw [List.forall_mem_cons] at h
      obtain ⟨productions, hwritten, hunused⟩ := ih h.2
      rcases blank_or_hasFault_or_isWrittenOn names line 0 with
        hblank | ⟨error, hfault⟩ | ⟨production, hline, hnew⟩
      · exact ⟨productions, by rwa [AreWrittenOn, filledLines_cons_of_blank hblank], hunused⟩
      · exact absurd hfault.isFaulty h.1
      · refine ⟨production :: productions, ?_, List.forall_mem_cons.mpr ⟨hnew, hunused⟩⟩
        rw [AreWrittenOn, filledLines_cons hline.trim_ne_nil]
        exact .cons hline hwritten

/-- Either some line has the first fault, or all lines that are not blank are written as
productions. -/
theorem isFirstFault_or_areWrittenOn (names : List Char → List (List Char))
    (lines : List (List Char)) :
    (∃ error, IsFirstFault names lines error) ∨
      ∃ productions, AreWrittenOn productions lines ∧
        ∀ production ∈ productions, endOfInputName.toList ∉ names production.alternatives := by
  classical
  cases hfound : lines.find? fun line => IsFaulty names line with
  | none =>
      rw [List.find?_eq_none] at hfound
      exact Or.inr (exists_areWrittenOn fun line hline => by simpa using hfound line hline)
  | some line =>
      obtain ⟨hfaulty, before, after, rfl, hbefore⟩ := List.find?_eq_some_iff_append.mp hfound
      have hline : IsFaulty names line := of_decide_eq_true hfaulty
      obtain ⟨error, hfault⟩ := hline.exists_hasFault (before.length + 1)
      refine Or.inl ⟨error, before, line, after, rfl, fun earlier hmem => ?_, hfault⟩
      simpa using hbefore earlier hmem

theorem IsFirstFault.ofLines_eq {lines : List (List Char)}
    (h : IsFirstFault words lines error) : ofLines (lines.zipIdx 1) = .error error := by
  obtain ⟨before, line, after, rfl, hbefore, hfault⟩ := h
  exact ofLines_of_hasFault hbefore hfault

theorem areWrittenOn_of_ofLines {lines : List (List Char)} {productions : List Production}
    (h : ofLines (lines.zipIdx 1) = .ok productions) :
    AreWrittenOn productions lines ∧
      ∀ production ∈ productions, endOfInputName.toList ∉ words production.alternatives := by
  rcases isFirstFault_or_areWrittenOn words lines with ⟨error, hfault⟩ | ⟨others, hwritten, hunused⟩
  · rw [hfault.ofLines_eq] at h
    contradiction
  · rw [ofLines_of_areWrittenOn hwritten hunused, Except.ok.injEq] at h
    exact h ▸ ⟨hwritten, hunused⟩

end Production

end GrammarAnalysis

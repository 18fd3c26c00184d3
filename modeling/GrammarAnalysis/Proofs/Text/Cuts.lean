import Mathlib.Data.List.Infix
import GrammarAnalysis.Proofs.Text.Split

/-!
# Arrows and bars on a line

A text is cut once at each of its arrows (`length_splitArrows`), so there are
two pieces exactly if there is one arrow, and then the pieces are what stands on
both sides of it.  The names between bars are the longest runs of characters
that are neither blank nor a bar, whether the bars or the blanks are looked for
first.
-/

namespace GrammarAnalysis.Text

variable {text left right : List Char}

/-! ## Blank lines -/

theorem trim_eq_nil_iff : trim text = [] ↔ ∀ c ∈ text, isBlank c = true := by
  rw [trim, List.reverse_eq_nil_iff, List.dropWhile_eq_nil_iff]
  constructor
  · intro h
    rw [← List.dropWhile_eq_nil_iff]
    by_contra hne
    -- the first character that is kept would have to be blank
    have hblank := h _ (List.mem_reverse.mpr (List.head_mem hne))
    rw [List.head_dropWhile_not isBlank hne] at hblank
    contradiction
  · intro h c hc
    exact h c ((List.dropWhile_sublist _).subset (List.mem_reverse.mp hc))

/-! ## Arrows -/

/-- The number of arrows in a text. -/
def arrowCount (text : List Char) : Nat :=
  text.tails.countP fun rest => ['-', '>'].isPrefixOf rest

theorem arrowCount_arrow (rest : List Char) :
    arrowCount ('-' :: '>' :: rest) = arrowCount rest + 1 := by
  simp [arrowCount]

theorem arrowCount_cons {c : Char} {rest : List Char}
    (h : ∀ behind, c = '-' → rest = '>' :: behind → False) :
    arrowCount (c :: rest) = arrowCount rest := by
  have hstart : ¬['-', '>'] <+: c :: rest := by
    rintro ⟨behind, heq⟩
    obtain ⟨rfl, rfl⟩ := List.cons.inj heq
    exact h behind rfl rfl
  rw [arrowCount, List.tails_cons, List.countP_cons_of_neg (by simpa using hstart), arrowCount]

theorem length_consFirst {α : Type} (c : α) {pieces : List (List α)} (h : pieces ≠ []) :
    (consFirst c pieces).length = pieces.length := by
  cases pieces with
  | nil => contradiction
  | cons piece pieces => rfl

theorem consFirst_append {α : Type} (c : α) {pieces : List (List α)} (h : pieces ≠ [])
    (more : List (List α)) : consFirst c (pieces ++ more) = consFirst c pieces ++ more := by
  cases pieces with
  | nil => contradiction
  | cons piece pieces => rfl

theorem splitArrows_ne_nil (text : List Char) : splitArrows text ≠ [] := by
  obtain ⟨first, others, heq, -⟩ := exists_splitArrows_eq text
  simp [heq]

/-- There is one piece more than there are arrows. -/
theorem length_splitArrows (text : List Char) :
    (splitArrows text).length = arrowCount text + 1 := by
  fun_induction splitArrows text with
  | case1 => rfl
  | case2 rest ih => rw [List.length_cons, ih, arrowCount_arrow]
  | case3 c rest hne ih =>
      rw [length_consFirst c (splitArrows_ne_nil rest), ih, arrowCount_cons hne]

/-- An arrow cuts a text, whatever stands on both sides. -/
theorem splitArrows_append_arrow (left right : List Char) :
    splitArrows (left ++ '-' :: '>' :: right) = splitArrows left ++ splitArrows right := by
  fun_induction splitArrows left with
  | case1 => rfl
  | case2 rest ih => rw [List.cons_append, List.cons_append, splitArrows, ih, List.cons_append]
  | case3 c rest hne ih =>
      rw [List.cons_append, splitArrows, ih, consFirst_append c (splitArrows_ne_nil rest)]
      rintro behind rfl heq
      cases rest with
      | nil => exact absurd (List.cons.inj heq).1 (by decide)
      | cons d rest => exact hne rest rfl (by rw [(List.cons.inj heq).1])

theorem hasNoArrow_of_arrowCount_eq_zero (h : arrowCount text = 0) : HasNoArrow text := by
  fun_induction splitArrows text with
  | case1 => exact .nil
  | case2 rest ih =>
      rw [arrowCount_arrow] at h
      contradiction
  | case3 c rest hne ih =>
      rw [arrowCount_cons hne] at h
      refine List.isChain_cons.mpr ⟨fun d hd harrow => ?_, ih h⟩
      obtain ⟨behind, heq⟩ := List.head?_eq_some_iff.mp hd
      exact hne behind harrow.1 (harrow.2 ▸ heq)

theorem splitArrows_of_arrowCount_eq_zero (h : arrowCount text = 0) : splitArrows text = [text] :=
  splitArrows_of_hasNoArrow (hasNoArrow_of_arrowCount_eq_zero h)

/-- Whether there is one arrow in a text, and it stands between the two parts. -/
structure CutsAtArrow (text left right : List Char) : Prop where
  text_eq : text = left ++ '-' :: '>' :: right
  once : arrowCount text = 1

theorem CutsAtArrow.splitArrows_eq (h : CutsAtArrow text left right) :
    splitArrows text = [left, right] := by
  have hlength := length_splitArrows text
  rw [h.once, h.text_eq, splitArrows_append_arrow, List.length_append, length_splitArrows,
    length_splitArrows] at hlength
  have hleft : arrowCount left = 0 := by omega
  have hright : arrowCount right = 0 := by omega
  rw [h.text_eq, splitArrows_append_arrow, splitArrows_of_arrowCount_eq_zero hleft,
    splitArrows_of_arrowCount_eq_zero hright, List.singleton_append]

theorem CutsAtArrow.unique {left' right' : List Char} (h : CutsAtArrow text left right)
    (h' : CutsAtArrow text left' right') : left = left' ∧ right = right' := by
  simpa using h.splitArrows_eq.symm.trans h'.splitArrows_eq

theorem exists_eq_append_arrow (h : arrowCount text ≠ 0) :
    ∃ left right, text = left ++ '-' :: '>' :: right := by
  obtain ⟨rest, hrest, harrow⟩ := List.countP_pos_iff.mp (Nat.pos_of_ne_zero h)
  obtain ⟨left, rfl⟩ := (List.mem_tails _ _).mp hrest
  obtain ⟨right, rfl⟩ := List.isPrefixOf_iff_prefix.mp harrow
  exact ⟨left, right, rfl⟩

theorem exists_cutsAtArrow (h : arrowCount text = 1) :
    ∃ left right, CutsAtArrow text left right := by
  have hsome : arrowCount text ≠ 0 := by omega
  obtain ⟨left, right, heq⟩ := exists_eq_append_arrow hsome
  exact ⟨left, right, heq, h⟩

theorem trim_ne_nil_of_arrowCount_ne_zero (h : arrowCount text ≠ 0) : trim text ≠ [] := by
  obtain ⟨left, right, rfl⟩ := exists_eq_append_arrow h
  rw [ne_eq, trim_eq_nil_iff]
  intro hblank
  exact absurd (hblank '-' (by simp)) (by decide)

theorem CutsAtArrow.trim_ne_nil (h : CutsAtArrow text left right) : trim text ≠ [] :=
  trim_ne_nil_of_arrowCount_ne_zero (by rw [h.once]; exact Nat.one_ne_zero)

/-! ## Names between bars -/

/-- The names in the alternatives that bars separate. -/
def alternativeWords (text : List Char) : List (List Char) :=
  (splitWhere (· = '|') text).flatMap words

/-- Cutting at some separators and then at others is cutting at all of them. -/
theorem flatMap_splitWhere {α : Type} (isCut isCut' : α → Bool) (text : List α) :
    (splitWhere isCut text).flatMap (splitWhere isCut') =
      splitWhere (fun c => isCut c || isCut' c) text := by
  induction text with
  | nil => rfl
  | cons c rest ih =>
      obtain ⟨first, others, heq⟩ := List.exists_cons_of_ne_nil (splitWhere_ne_nil isCut rest)
      rw [heq, List.flatMap_cons] at ih
      by_cases hcut : isCut c = true
      · rw [splitWhere, if_pos hcut, splitWhere, if_pos (by simp [hcut]), ← ih, heq]
        rfl
      · rw [splitWhere, if_neg hcut, heq, consFirst, List.flatMap_cons, splitWhere, splitWhere,
          ← ih]
        by_cases hcut' : isCut' c = true
        · simp [hcut']
        · simp [hcut, hcut', consFirst_append c (splitWhere_ne_nil isCut' first)]

/-- Bars cut the words of a text into the names between bars. -/
theorem mem_alternativeWords_iff {name : List Char} :
    name ∈ alternativeWords text ↔
      name ≠ [] ∧ ∃ word ∈ words text, name ∈ splitWhere (· = '|') word := by
  have hcuts : (splitWhere isBlank text).flatMap (splitWhere (· = '|')) =
      (splitWhere (· = '|') text).flatMap (splitWhere isBlank) := by
    simp only [flatMap_splitWhere, Bool.or_comm]
  have hmem : (∃ piece ∈ splitWhere isBlank text, name ∈ splitWhere (· = '|') piece) ↔
      ∃ piece ∈ splitWhere (· = '|') text, name ∈ splitWhere isBlank piece := by
    rw [← List.mem_flatMap, hcuts, List.mem_flatMap]
  rw [alternativeWords, List.mem_flatMap]
  constructor
  · rintro ⟨piece, hpiece, hname⟩
    have hne := ne_nil_of_mem_words hname
    obtain ⟨word, hword, hinside⟩ := hmem.mpr ⟨piece, hpiece, (List.mem_filter.mp hname).1⟩
    refine ⟨hne, word, List.mem_filter.mpr ⟨hword, ?_⟩, hinside⟩
    have hword_ne : word ≠ [] := by
      rintro rfl
      exact hne (List.mem_singleton.mp hinside)
    simpa using hword_ne
  · rintro ⟨hne, word, hword, hinside⟩
    obtain ⟨piece, hpiece, hname⟩ := hmem.mp ⟨word, (List.mem_filter.mp hword).1, hinside⟩
    exact ⟨piece, hpiece, List.mem_filter.mpr ⟨hname, by simpa using hne⟩⟩

/-- A word without a bar is a name of an alternative. -/
theorem mem_alternativeWords_of_mem_words {word : List Char} (h : word ∈ words text)
    (hbar : '|' ∉ word) : word ∈ alternativeWords text := by
  refine mem_alternativeWords_iff.mpr ⟨ne_nil_of_mem_words h, word, h, ?_⟩
  rw [splitWhere_of_not_mem hbar]
  exact List.mem_singleton_self word

end GrammarAnalysis.Text

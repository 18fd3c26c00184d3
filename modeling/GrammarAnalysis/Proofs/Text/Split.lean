import Mathlib.Data.List.Chain
import Mathlib.Data.List.TakeWhile
import GrammarAnalysis.Text.Split

/-!
# Taking joined text apart again

A text is cut apart at each of its separators, and nowhere else.  So pieces that
hold no separator are found again when they have been joined by separators.
Words may have any number of blanks between them; arrows are two characters, and
a text holds none exactly if no `-` has a `>` behind it.
-/

namespace GrammarAnalysis.Text

/-! ## Pieces between separators -/

theorem mem_intercalate {α : Type} {separator : List α} {pieces : List (List α)} {c : α}
    (h : c ∈ separator.intercalate pieces) : c ∈ separator ∨ ∃ piece ∈ pieces, c ∈ piece := by
  induction pieces with
  | nil =>
      rw [List.intercalate_nil] at h
      contradiction
  | cons piece others ih =>
      cases others with
      | nil =>
          rw [List.intercalate_singleton] at h
          exact Or.inr ⟨piece, by simp, h⟩
      | cons other others =>
          rw [List.intercalate_cons_cons, List.mem_append, List.mem_append] at h
          rcases h with (h | h) | h
          · exact Or.inr ⟨piece, by simp, h⟩
          · exact Or.inl h
          · refine (ih h).imp_right ?_
            rintro ⟨piece', hpiece', hc⟩
            exact ⟨piece', List.mem_cons_of_mem _ hpiece', hc⟩

section Pieces

variable {α : Type} {isCut : α → Bool} {text piece : List α}

theorem splitWhere_eq_splitOnP (isCut : α → Bool) (text : List α) :
    splitWhere isCut text = text.splitOnP isCut := by
  induction text with
  | nil => rfl
  | cons c rest ih =>
      rw [splitWhere, List.splitOnP_cons_eq_if_modifyHead, ih]
      cases hpieces : rest.splitOnP isCut with
      | nil => exact absurd hpieces (List.splitOnP_ne_nil _ _)
      | cons first others => rfl

theorem splitWhere_append_cons {c : α} (h : isCut c = true) (before rest : List α) :
    splitWhere isCut (before ++ c :: rest) =
      splitWhere isCut before ++ splitWhere isCut rest := by
  simp only [splitWhere_eq_splitOnP, List.splitOnP_append_cons _ _ h]

theorem splitWhere_of_forall (h : ∀ c ∈ text, isCut c = false) :
    splitWhere isCut text = [text] := by
  rw [splitWhere_eq_splitOnP, List.splitOnP_eq_singleton h]

theorem splitWhere_of_not_mem [DecidableEq α] {c : α} (h : c ∉ text) :
    splitWhere (· = c) text = [text] :=
  splitWhere_of_forall fun _ hd => decide_eq_false fun heq => h (heq ▸ hd)

theorem splitWhere_ne_nil (isCut : α → Bool) (text : List α) : splitWhere isCut text ≠ [] := by
  rw [splitWhere_eq_splitOnP]
  exact List.splitOnP_ne_nil _ _

/-- The first piece stands at the start of the text, every other one inside it, and no
piece has a separator. -/
theorem exists_splitWhere_eq (isCut : α → Bool) (text : List α) :
    ∃ first others, splitWhere isCut text = first :: others ∧ first <+: text ∧
      (∀ piece ∈ others, piece <:+: text) ∧
      ∀ piece ∈ first :: others, ∀ c ∈ piece, isCut c = false := by
  induction text with
  | nil => exact ⟨[], [], rfl, List.nil_prefix, by simp, by simp⟩
  | cons c rest ih =>
      obtain ⟨first, others, heq, hfirst, hothers, hcuts⟩ := ih
      have hrest : ∀ piece ∈ others, piece <:+: c :: rest :=
        fun piece hpiece => (hothers piece hpiece).trans (List.suffix_cons c rest).isInfix
      rw [splitWhere, heq]
      split
      · refine ⟨[], first :: others, rfl, List.nil_prefix, ?_, ?_⟩
        · rw [List.forall_mem_cons]
          exact ⟨hfirst.isInfix.trans (List.suffix_cons c rest).isInfix, hrest⟩
        · exact List.forall_mem_cons.mpr ⟨by simp, hcuts⟩
      · next hc =>
        rw [List.forall_mem_cons] at hcuts
        refine ⟨c :: first, others, rfl, (List.prefix_cons_inj c).mpr hfirst, hrest, ?_⟩
        rw [List.forall_mem_cons, List.forall_mem_cons]
        exact ⟨⟨eq_false_of_ne_true hc, hcuts.1⟩, hcuts.2⟩

theorem isCut_eq_false_of_mem (h : piece ∈ splitWhere isCut text) :
    ∀ c ∈ piece, isCut c = false := by
  obtain ⟨first, others, heq, -, -, hcuts⟩ := exists_splitWhere_eq isCut text
  exact hcuts piece (heq ▸ h)

theorem infix_of_mem_splitWhere (h : piece ∈ splitWhere isCut text) : piece <:+: text := by
  obtain ⟨first, others, heq, hfirst, hothers, -⟩ := exists_splitWhere_eq isCut text
  rw [heq, List.mem_cons] at h
  rcases h with rfl | h
  · exact hfirst.isInfix
  · exact hothers piece h

end Pieces

/-! ## Words -/

variable {c : Char} {text word : List Char}

@[simp] theorem words_nil : words [] = [] := rfl

theorem words_append_cons (h : isBlank c = true) (before rest : List Char) :
    words (before ++ c :: rest) = words before ++ words rest := by
  rw [words, splitWhere_append_cons h, List.filter_append, words, words]

theorem words_cons (h : isBlank c = true) (rest : List Char) : words (c :: rest) = words rest :=
  words_append_cons h [] rest

theorem words_of_forall (hne : text ≠ []) (h : ∀ c ∈ text, isBlank c = false) :
    words text = [text] := by
  rw [words, splitWhere_of_forall h]
  simpa using hne

theorem words_intercalate {pieces : List (List Char)} (hne : ∀ piece ∈ pieces, piece ≠ [])
    (h : ∀ piece ∈ pieces, ∀ c ∈ piece, isBlank c = false) :
    words ([' '].intercalate pieces) = pieces := by
  induction pieces with
  | nil => rfl
  | cons piece others ih =>
      rw [List.forall_mem_cons] at hne h
      have hfirst := words_of_forall hne.1 h.1
      cases others with
      | nil => rwa [List.intercalate_singleton]
      | cons other others =>
          rw [List.intercalate_cons_cons, List.append_assoc, List.singleton_append,
            words_append_cons rfl, hfirst, ih hne.2 h.2, List.singleton_append]

theorem ne_nil_of_mem_words (h : word ∈ words text) : word ≠ [] := by
  simpa using (List.mem_filter.mp h).2

theorem isBlank_eq_false_of_mem (h : word ∈ words text) : ∀ c ∈ word, isBlank c = false :=
  isCut_eq_false_of_mem (List.mem_filter.mp h).1

theorem infix_of_mem_words (h : word ∈ words text) : word <:+: text :=
  infix_of_mem_splitWhere (List.mem_filter.mp h).1

/-! ## Lines -/

theorem lines_append_newline {line : List Char} (h : '\n' ∉ line) (rest : List Char) :
    lines (line ++ '\n' :: rest) = dropReturn line :: lines rest := by
  have hne := splitWhere_ne_nil (· = '\n') rest
  rw [lines, splitWhere_append_cons (by simp), splitWhere_of_not_mem h, List.singleton_append,
    List.getLast?_cons_of_ne_nil hne, List.dropLast_cons_of_ne_nil hne, lines]
  rfl

theorem dropReturn_of_not_mem {line : List Char} (h : '\r' ∉ line) : dropReturn line = line :=
  if_neg fun hlast => h (List.mem_of_getLast? hlast)

/-! ## Trimmed text -/

theorem trim_cons_ne_nil (h : isBlank c = false) (rest : List Char) : trim (c :: rest) ≠ [] := by
  rw [trim, List.dropWhile_cons_of_neg (by simp [h]), ne_eq, List.reverse_eq_nil_iff,
    List.dropWhile_eq_nil_iff]
  intro hblank
  have hfirst := hblank c (by simp)
  rw [h] at hfirst
  contradiction

theorem isBlank_eq_false_of_trim (h : trim text = [c]) : isBlank c = false := by
  rw [trim, List.reverse_eq_iff, List.reverse_singleton] at h
  have hne : (text.dropWhile isBlank).reverse.dropWhile isBlank ≠ [] := by simp [h]
  have hhead := List.head_dropWhile_not isBlank hne
  simpa only [h, List.head_cons] using hhead

theorem trim_append_blank (h : isBlank c = false) : trim [c, ' '] = [c] := by
  simp [trim, h, show isBlank ' ' = true from rfl]

/-! ## Arrows -/

/-- Whether no `-` in the text has a `>` behind it. -/
def HasNoArrow (text : List Char) : Prop := text.IsChain fun c d => ¬(c = '-' ∧ d = '>')

theorem HasNoArrow.of_inside (h : HasNoArrow text) (hinside : word <:+: text) : HasNoArrow word :=
  List.IsChain.infix h hinside

theorem splitArrows_of_hasNoArrow (h : HasNoArrow text) : splitArrows text = [text] := by
  fun_induction splitArrows text with
  | case1 => rfl
  | case2 rest ih => exact absurd ⟨rfl, rfl⟩ (List.isChain_cons_cons.mp h).1
  | case3 c rest _ ih => rw [ih h.tail, consFirst]

/-- The first piece stands at the start of the text, and no piece has an arrow. -/
theorem exists_splitArrows_eq (text : List Char) :
    ∃ first others, splitArrows text = first :: others ∧ first <+: text ∧ HasNoArrow first ∧
      ∀ piece ∈ others, HasNoArrow piece := by
  fun_induction splitArrows text with
  | case1 => exact ⟨[], [], rfl, List.nil_prefix, .nil, by simp⟩
  | case2 rest ih =>
      obtain ⟨first, others, heq, -, hfirst, hothers⟩ := ih
      refine ⟨[], first :: others, by rw [heq], List.nil_prefix, .nil, ?_⟩
      exact List.forall_mem_cons.mpr ⟨hfirst, hothers⟩
  | case3 c rest hne ih =>
      obtain ⟨first, others, heq, hprefix, hfirst, hothers⟩ := ih
      refine ⟨c :: first, others, by rw [heq, consFirst], ?_, ?_, hothers⟩
      · exact (List.prefix_cons_inj c).mpr hprefix
      · cases first with
        | nil => exact .singleton c
        | cons d first =>
            refine .cons_cons ?_ hfirst
            rintro ⟨rfl, rfl⟩
            obtain ⟨behind, rfl⟩ := hprefix
            exact hne (first ++ behind) rfl rfl

theorem hasNoArrow_of_mem_splitArrows {piece : List Char} (h : piece ∈ splitArrows text) :
    HasNoArrow piece := by
  obtain ⟨first, others, heq, -, hfirst, hothers⟩ := exists_splitArrows_eq text
  rw [heq, List.mem_cons] at h
  rcases h with rfl | h
  · exact hfirst
  · exact hothers piece h

theorem HasNoArrow.cons (h : HasNoArrow text) (hc : c ≠ '-') : HasNoArrow (c :: text) :=
  List.isChain_cons.mpr ⟨fun _ _ harrow => hc harrow.1, h⟩

theorem HasNoArrow.append_left {before : List Char} (h : HasNoArrow text)
    (hminus : ∀ c ∈ before, c ≠ '-') : HasNoArrow (before ++ text) := by
  induction before with
  | nil => exact h
  | cons c before ih =>
      rw [List.forall_mem_cons] at hminus
      exact (ih hminus.2).cons hminus.1

/-- Parts without an arrow make none when a character stands between them that belongs to
no arrow. -/
theorem HasNoArrow.append_cons {before rest : List Char} (hbefore : HasNoArrow before)
    (hrest : HasNoArrow (c :: rest)) (hc : c ≠ '>') : HasNoArrow (before ++ c :: rest) := by
  refine List.isChain_append.mpr ⟨hbefore, hrest, ?_⟩
  rintro a - b hb ⟨-, rfl⟩
  exact hc (Option.some.inj hb)

theorem HasNoArrow.intercalate {separator : List Char} {pieces : List (List Char)}
    (h : ∀ piece ∈ pieces, HasNoArrow piece) (hgreater : c ≠ '>')
    (hminus : ∀ d ∈ c :: separator, d ≠ '-') :
    HasNoArrow ((c :: separator).intercalate pieces) := by
  induction pieces with
  | nil => exact .nil
  | cons piece others ih =>
      rw [List.forall_mem_cons] at h
      cases others with
      | nil => simpa using h.1
      | cons other others =>
          rw [List.intercalate_cons_cons, List.append_assoc, List.cons_append]
          exact h.1.append_cons ((ih h.2).append_left hminus) hgreater

end GrammarAnalysis.Text

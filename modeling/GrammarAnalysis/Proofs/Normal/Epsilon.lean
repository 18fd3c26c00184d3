import GrammarAnalysis.Normal.Epsilon
import GrammarAnalysis.Proofs.Grammar.Rebuild
import GrammarAnalysis.Proofs.Lookahead.Nullable

/-!
# Removing epsilon rules keeps all words but the empty one

A variant of a body derives no more than the body does, because what it drops is
nullable.  Conversely a word of a body, cut into words of its symbols, is a word
of the variant that keeps the symbols with nonempty words.
-/

namespace GrammarAnalysis.Grammar

open Reading

variable {g : Grammar} {n : NonterminalId} {nullable : List NonterminalId} {s : Symbol}
  {body variant : List Symbol} {word : List TerminalId} {L : Reading}

/-! ## Variants of a body -/

theorem variants_concat (nullable : List NonterminalId) (body : List Symbol) (s : Symbol) :
    variants nullable (body ++ [s]) = if counts false nullable s then
      (variants nullable body).map (· ++ [s]) ++ variants nullable body
    else (variants nullable body).map (· ++ [s]) := by
  rw [variants, List.foldl_append, List.foldl_cons, List.foldl_nil]
  rfl

/-- The variants go on with a symbol or, if it is nullable, without it. -/
theorem mem_variants_concat :
    variant ∈ variants nullable (body ++ [s]) ↔
      (∃ front ∈ variants nullable body, front ++ [s] = variant) ∨
        counts false nullable s = true ∧ variant ∈ variants nullable body := by
  rw [variants_concat]
  split
  · next hs => simp [hs]
  · next hs => simp [hs]

theorem mem_variants_nil : variant ∈ variants nullable [] ↔ variant = [] :=
  List.mem_singleton

/-- The variants double with each nullable occurrence. -/
theorem length_variants (nullable : List NonterminalId) (body : List Symbol) :
    (variants nullable body).length = 2 ^ body.countP (counts false nullable) := by
  induction body using List.reverseRecOn with
  | nil => rfl
  | append_singleton body s ih =>
      rw [variants_concat, List.countP_append, List.countP_singleton]
      split
      · rw [List.length_append, List.length_map, ih, Nat.pow_succ, Nat.mul_two]
      · rw [List.length_map, ih, Nat.add_zero]

theorem mem_variants_self (body : List Symbol) : body ∈ variants nullable body := by
  induction body using List.reverseRecOn with
  | nil => exact mem_variants_nil.mpr rfl
  | append_singleton body s ih => exact mem_variants_concat.mpr (Or.inl ⟨body, ih, rfl⟩)

/-- Any of the nullable symbols at the end of a body may be dropped. -/
theorem append_mem_variants (hrest : ∀ s ∈ rest, counts false nullable s = true)
    (hkept : kept.Sublist rest) : front ++ kept ∈ variants nullable (front ++ rest) := by
  induction rest using List.reverseRecOn generalizing kept with
  | nil =>
      rw [List.eq_nil_of_sublist_nil hkept]
      exact mem_variants_self _
  | append_singleton rest s ih =>
      rw [List.forall_mem_append, List.forall_mem_singleton] at hrest
      obtain ⟨kept, last, rfl, hfront, hlast⟩ := List.sublist_append_iff.mp hkept
      rw [← List.append_assoc, mem_variants_concat]
      rcases List.sublist_singleton.mp hlast with rfl | rfl
      · rw [List.append_nil]
        exact Or.inr ⟨hrest.2, ih hrest.1 hfront⟩
      · exact Or.inl ⟨front ++ kept, ih hrest.1 hfront, List.append_assoc _ _ _⟩

/-- A variant mentions symbols of the body only. -/
theorem subset_of_mem_variants (h : variant ∈ variants nullable body) : variant ⊆ body := by
  induction body using List.reverseRecOn generalizing variant with
  | nil =>
      rw [mem_variants_nil.mp h]
      exact List.Subset.refl []
  | append_singleton body s ih =>
      rcases mem_variants_concat.mp h with ⟨front, hfront, rfl⟩ | ⟨-, hvariant⟩
      · exact List.append_subset.mpr ⟨List.subset_append_of_subset_left _ (ih hfront),
          List.subset_append_right _ _⟩
      · exact List.subset_append_of_subset_left _ (ih hvariant)

/-- The empty variant belongs to a body of nullable symbols. -/
theorem counts_of_nil_mem_variants (h : [] ∈ variants nullable body) :
    ∀ s ∈ body, counts false nullable s = true := by
  induction body using List.reverseRecOn with
  | nil => simp
  | append_singleton body s ih =>
      rcases mem_variants_concat.mp h with ⟨front, -, hnil⟩ | ⟨hs, hnil⟩
      · simp at hnil
      · rw [List.forall_mem_append, List.forall_mem_singleton]
        exact ⟨ih hnil, hs⟩

theorem nil_mem_ofSymbol (hL : ∀ n ∈ nullable, [] ∈ L n) (hs : counts false nullable s = true) :
    [] ∈ L.ofSymbol s := by
  cases s with
  | terminal t => exact absurd hs Bool.false_ne_true
  | nonterminal n => exact hL n (List.contains_iff_mem.mp hs)

/-- If nullable symbols have the empty word, the words of a variant are words of the body. -/
theorem ofForm_le_of_mem_variants (hL : ∀ n ∈ nullable, [] ∈ L n)
    (h : variant ∈ variants nullable body) : L.ofForm variant ≤ L.ofForm body := by
  induction body using List.reverseRecOn generalizing variant with
  | nil => rw [mem_variants_nil.mp h]
  | append_singleton body s ih =>
      rw [ofForm_append, ofForm_singleton]
      rcases mem_variants_concat.mp h with ⟨front, hfront, rfl⟩ | ⟨hs, hvariant⟩
      · rw [ofForm_append, ofForm_singleton]
        exact mul_le_mul_left (ih hfront) _
      · calc
          L.ofForm variant ≤ L.ofForm body := ih hvariant
          _ = L.ofForm body * 1 := (mul_one _).symm
          _ ≤ L.ofForm body * L.ofSymbol s := by
            refine mul_le_mul_right ?_ _
            rintro _ rfl
            exact nil_mem_ofSymbol hL hs

/-- The languages with the empty word for the nullable nonterminals. -/
def withNullable (nullable : List NonterminalId) (L : Reading) : Reading := fun n =>
  {word | word = [] ∧ n ∈ nullable ∨ word ∈ L n}

/-- A word of a body is a word of the variant that drops what derives the empty word. -/
theorem exists_variant (h : word ∈ (withNullable nullable L).ofForm body) :
    ∃ variant ∈ variants nullable body, word ∈ L.ofForm variant := by
  induction body using List.reverseRecOn generalizing word with
  | nil => exact ⟨[], mem_variants_nil.mpr rfl, h⟩
  | append_singleton body s ih =>
      rw [ofForm_append, ofForm_singleton] at h
      obtain ⟨before, hbefore, part, hpart, rfl⟩ := h
      obtain ⟨front, hfront, hword⟩ := ih hbefore
      have hkept : part ∈ L.ofSymbol s → ∃ variant ∈ variants nullable (body ++ [s]),
          before ++ part ∈ L.ofForm variant := by
        intro hpart
        refine ⟨_, mem_variants_concat.mpr (Or.inl ⟨front, hfront, rfl⟩), ?_⟩
        rw [ofForm_append, ofForm_singleton]
        exact Language.append_mem_mul hword hpart
      cases s with
      | terminal t => exact hkept hpart
      | nonterminal n =>
          rcases hpart with ⟨rfl, hn⟩ | hpart
          · refine ⟨front, mem_variants_concat.mpr (Or.inr ⟨?_, hfront⟩), ?_⟩
            · exact List.contains_iff_mem.mpr hn
            · simpa using hword
          · exact hkept hpart

/-! ## The pass -/

theorem mem_epsilonFreeBodies {rule : Rule} :
    body ∈ epsilonFreeBodies nullable rule ↔
      body ∈ variants nullable rule.body ∧ body ≠ [] ∧ body ≠ [.nonterminal rule.head] := by
  rw [epsilonFreeBodies, List.mem_filter, Bool.and_eq_true, decide_eq_true_eq, decide_eq_true_eq]

/-- The rules of the grammar without epsilon rules. -/
theorem mem_ruleSet_withoutEpsilonRules (hg : g.IsPlain) :
    g.withoutEpsilonRules.IsPlain ∧ g.withoutEpsilonRules.start = g.start ∧
      ∀ rule, rule ∈ g.withoutEpsilonRules.ruleSet ↔ ∃ source ∈ g.ruleSet,
        rule.head = source.head ∧ rule.body ∈ epsilonFreeBodies g.nullable source := by
  have hadmits : ∀ source ∈ g.rules.values, ∀ rule ∈ rulesFor source.head
      (epsilonFreeBodies g.nullable source), g.toDefinition.Admits rule := by
    rintro source hsource ⟨_, body⟩ ⟨rfl, hbody⟩
    obtain ⟨hhead, hall⟩ := hg.admits source hsource
    exact ⟨hhead, fun s hs => hall s (subset_of_mem_variants (mem_epsilonFreeBodies.mp hbody).1 hs)⟩
  obtain ⟨hplain, hstart, hrules⟩ : g.withoutEpsilonRules.IsPlain ∧
      g.withoutEpsilonRules.start = g.start ∧ g.withoutEpsilonRules.ruleSet = _ :=
    isPlain_rebuild_ensureRules Rule.head (epsilonFreeBodies g.nullable) hg hadmits
  exact ⟨hplain, hstart, fun rule => Set.ext_iff.mp hrules rule⟩

/-- Without epsilon rules every nonterminal derives the same words but the empty one. -/
theorem generates_withoutEpsilonRules_iff (hg : g.IsPlain) :
    g.withoutEpsilonRules.Generates n word ↔ g.Generates n word ∧ word ≠ [] := by
  obtain ⟨-, -, hrules⟩ := mem_ruleSet_withoutEpsilonRules hg
  rw [generates_iff_mem_least, generates_iff_mem_least]
  constructor
  · intro h
    constructor
    · refine least_le (fun rule hrule => ?_) n h
      obtain ⟨source, hsource, hhead, hbody⟩ := (hrules rule).mp hrule
      rw [hhead]
      exact (ofForm_le_of_mem_variants (fun m hm =>
        generates_iff_mem_least.mp (mem_nullable_iff.mp hm))
        (mem_epsilonFreeBodies.mp hbody).1).trans (solves_least g.ruleSet source hsource)
    · let nonempty : Reading := fun _ => {word | word ≠ []}
      refine least_le (L := nonempty) (fun rule hrule word hword hempty => ?_) n h
      obtain ⟨source, -, -, hbody⟩ := (hrules rule).mp hrule
      obtain ⟨s, hs⟩ := List.exists_mem_of_ne_nil _ (mem_epsilonFreeBodies.mp hbody).2.1
      rw [hempty] at hword
      have hpart := nil_mem_ofForm_iff.mp hword s hs
      cases s with
      | terminal t => exact (List.cons_ne_nil t []) (Set.mem_singleton_iff.mp hpart).symm
      | nonterminal m => exact hpart rfl
  · rintro ⟨h, hne⟩
    have hsolves : (withNullable g.nullable (least g.withoutEpsilonRules.ruleSet)).Solves
        g.ruleSet := by
      intro rule hrule word hword
      obtain ⟨variant, hvariant, hword⟩ := exists_variant hword
      by_cases hempty : variant = []
      · left
        rw [hempty] at hvariant hword
        exact ⟨hword, closed_closeHeads (areHeads_epsilonHeads g) hrule
          (counts_of_nil_mem_variants hvariant)⟩
      · right
        by_cases hself : variant = [.nonterminal rule.head]
        · rwa [hself, ofForm_singleton] at hword
        · refine solves_least _ ⟨rule.head, variant⟩ ((hrules _).mpr ⟨rule, hrule, rfl, ?_⟩) hword
          exact mem_epsilonFreeBodies.mpr ⟨hvariant, hempty, hself⟩
    rcases least_le hsolves n h with ⟨hempty, -⟩ | hword
    · exact absurd hempty hne
    · exact hword

theorem body_ne_nil_of_withoutEpsilonRules (hg : g.IsPlain) :
    ∀ rule ∈ g.withoutEpsilonRules.ruleSet, rule.body ≠ [] := by
  intro rule hrule
  obtain ⟨source, -, -, hbody⟩ := ((mem_ruleSet_withoutEpsilonRules hg).2.2 rule).mp hrule
  exact (mem_epsilonFreeBodies.mp hbody).2.1

/-- The flag of the pipeline says whether the empty word is derived. -/
theorem acceptsEmptyWord_iff : g.acceptsEmptyWord = true ↔ g.HasWord [] := by
  rw [acceptsEmptyWord, List.contains_iff_mem, mem_nullable_iff, HasWord]

end GrammarAnalysis.Grammar

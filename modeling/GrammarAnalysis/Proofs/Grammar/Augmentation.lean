import GrammarAnalysis.Derivation.Relation
import GrammarAnalysis.Proofs.Grammar.Plain
import GrammarAnalysis.ShiftReduce.Table

/-!
# The augmentation of a plain grammar

Every plain grammar can be augmented.  Its augmentation has one more
nonterminal and one more rule, both with reserved numbers, and the derivations
of a plain grammar are those of its augmentation that avoid the reserved rule.

What augmenting adds does not depend on the grammar being plain: its start symbol
has to be declared, and the reserved rule has to be missing.
-/

namespace GrammarAnalysis.Grammar

/-! ## Augmenting any grammar -/

/-- Whether `a` adds to `g` the reserved start symbol with the reserved rule, and nothing else. -/
structure AddsReserved (g a : Grammar) : Prop where
  start_eq : a.start = augmentedStart
  terminals_eq : a.terminals = g.terminals
  mem_nonterminals_iff : ∀ n,
    n ∈ a.nonterminals.keys ↔ n = augmentedStart ∨ n ∈ g.nonterminals.keys
  get?_nonterminals : ∀ n name, g.nonterminals.get? n = some name →
    a.nonterminals.get? n = some name
  get?_rules_iff : ∀ id rule, a.rules.get? id = some rule ↔
    (id = acceptRule ∧ rule = ⟨augmentedStart, [.nonterminal g.start]⟩) ∨
      g.rules.get? id = some rule

/-- A grammar that does not count as augmented gets the reserved symbol and the reserved rule. -/
theorem exists_addsReserved {g : Grammar} (hstart : g.start ∈ g.nonterminals.keys)
    (hne : g.start ≠ augmentedStart) (haccept : acceptRule ∉ g.rules.keys) :
    ∃ a, g.augmented? = some a ∧ g.AddsReserved a := by
  obtain ⟨base, hbase⟩ := OrderedMap.mem_keys_iff.mp hstart
  have hrules : (((acceptRule, (⟨augmentedStart, [.nonterminal g.start]⟩ : Rule)) ::
      g.rules.entries).map Prod.fst).Nodup :=
    List.nodup_cons.mpr ⟨haccept, g.rules.nodup⟩
  let a : Grammar := {
    terminals := g.terminals
    nonterminals :=
      OrderedMap.ofList ((augmentedStart, g.augmentedName base) :: g.nonterminals.entries)
    rules :=
      OrderedMap.ofList
        ((acceptRule, ⟨augmentedStart, [.nonterminal g.start]⟩) :: g.rules.entries)
    start := augmentedStart }
  have hnot : g.isAugmented = false := by simpa [isAugmented] using hne
  have haugmented : g.augmented? = some a := by simp [augmented?, hnot, hbase, a]
  refine ⟨a, haugmented, rfl, rfl, fun n => ?_, fun n name hn => ?_, fun id rule => ?_⟩
  · rw [OrderedMap.mem_keys_ofList, List.map_cons, List.mem_cons]
    rfl
  · exact (OrderedMap.get?_foldl_insert g.nonterminals.nodup).mpr
      (Or.inl (OrderedMap.get?_eq_some_iff.mp hn))
  · rw [OrderedMap.get?_ofList hrules, List.mem_cons, Prod.mk.injEq, OrderedMap.get?_eq_some_iff]

theorem augmented?_of_withAcceptRule? {g a : Grammar} (h : g.withAcceptRule? = some a) :
    g.augmented? = some a := by
  rw [withAcceptRule?] at h
  obtain ⟨augmented, haugmented, h⟩ := Option.bind_eq_some_iff.mp h
  split at h
  · rwa [← Option.some.inj h]
  · contradiction

/-! ## Plain grammars -/

/-- Whether `a` adds to the plain grammar `g` the reserved start symbol with the
reserved rule, and nothing else. -/
structure IsAugmentation (g a : Grammar) : Prop where
  isPlain : g.IsPlain
  start_eq : a.start = augmentedStart
  terminals_eq : a.terminals = g.terminals
  mem_nonterminals_iff : ∀ n,
    n ∈ a.nonterminals.keys ↔ n = augmentedStart ∨ n ∈ g.nonterminals.keys
  get?_rules_iff : ∀ id rule, a.rules.get? id = some rule ↔
    (id = acceptRule ∧ rule = ⟨augmentedStart, [.nonterminal g.start]⟩) ∨
      g.rules.get? id = some rule

theorem IsPlain.start_ne {g : Grammar} (hg : g.IsPlain) : g.start ≠ augmentedStart :=
  hg.nonterminals_pos g.start hg.start_declared

theorem IsPlain.ne_acceptRule {g : Grammar} (hg : g.IsPlain) {id : RuleId} {rule : Rule}
    (h : g.rules.get? id = some rule) : id ≠ acceptRule :=
  hg.rules_pos id (OrderedMap.mem_keys_of_get? h)

theorem IsPlain.head_ne {g : Grammar} (hg : g.IsPlain) {id : RuleId} {rule : Rule}
    (h : g.rules.get? id = some rule) : rule.head ≠ augmentedStart :=
  hg.nonterminals_pos _ (hg.heads_declared rule (OrderedMap.mem_values_of_get? h))

/-- Every plain grammar can be augmented. -/
theorem IsPlain.exists_isAugmentation {g : Grammar} (hg : g.IsPlain) :
    ∃ a, g.withAcceptRule? = some a ∧ g.IsAugmentation a := by
  obtain ⟨a, haugmented, h⟩ := exists_addsReserved hg.start_declared hg.start_ne
    fun haccept => hg.rules_pos _ haccept rfl
  refine ⟨a, ?_, hg, h.start_eq, h.terminals_eq, h.mem_nonterminals_iff, h.get?_rules_iff⟩
  have haccept : a.rules.contains acceptRule = true :=
    OrderedMap.contains_iff.mpr
      (OrderedMap.mem_keys_of_get? ((h.get?_rules_iff acceptRule _).mpr (Or.inl ⟨rfl, rfl⟩)))
  simp [withAcceptRule?, haugmented, haccept]

namespace IsAugmentation

variable {g a : Grammar}

theorem get?_accept (h : g.IsAugmentation a) :
    a.rules.get? acceptRule = some ⟨augmentedStart, [.nonterminal g.start]⟩ :=
  (h.get?_rules_iff _ _).mpr (Or.inl ⟨rfl, rfl⟩)

theorem get?_of_get? (h : g.IsAugmentation a) {id : RuleId} {rule : Rule}
    (hrule : g.rules.get? id = some rule) : a.rules.get? id = some rule :=
  (h.get?_rules_iff _ _).mpr (Or.inr hrule)

theorem get?_of_ne (h : g.IsAugmentation a) {id : RuleId} {rule : Rule}
    (hne : id ≠ acceptRule) (hrule : a.rules.get? id = some rule) :
    g.rules.get? id = some rule :=
  ((h.get?_rules_iff _ _).mp hrule).resolve_left fun h => hne h.1

/-- The reserved start symbol stands in no body. -/
theorem augmentedStart_not_mem (h : g.IsAugmentation a) {id : RuleId} {rule : Rule}
    (hrule : a.rules.get? id = some rule) : .nonterminal augmentedStart ∉ rule.body := by
  rcases (h.get?_rules_iff _ _).mp hrule with ⟨-, rfl⟩ | hrule
  · intro hmem
    simp only [List.mem_singleton, Symbol.nonterminal.injEq] at hmem
    exact h.isPlain.start_ne hmem.symm
  · intro hmem
    have := h.isPlain.bodies_declared rule (OrderedMap.mem_values_of_get? hrule) _ hmem
    exact h.isPlain.nonterminals_pos _ this rfl

/-- The end of input stands in no body. -/
theorem endOfInput_not_mem (h : g.IsAugmentation a) {id : RuleId} {rule : Rule}
    (hrule : a.rules.get? id = some rule) : .terminal endOfInput ∉ rule.body := by
  rcases (h.get?_rules_iff _ _).mp hrule with ⟨-, rfl⟩ | hrule
  · simp
  · exact h.isPlain.endOfInput_unused rule (OrderedMap.mem_values_of_get? hrule)

/-- Every symbol of an augmented grammar is declared. -/
theorem declares_body (h : g.IsAugmentation a) {id : RuleId} {rule : Rule}
    (hrule : a.rules.get? id = some rule) : ∀ symbol ∈ rule.body, a.Declares symbol := by
  have hdeclares : ∀ symbol, g.Declares symbol → a.Declares symbol := by
    intro symbol hs
    cases symbol with
    | terminal t =>
        rw [Declares, h.terminals_eq]
        exact hs
    | nonterminal n => exact (h.mem_nonterminals_iff n).mpr (Or.inr hs)
  intro symbol hmem
  refine hdeclares symbol ?_
  rcases (h.get?_rules_iff _ _).mp hrule with ⟨-, rfl⟩ | hrule
  · rw [List.mem_singleton.mp hmem]
    exact h.isPlain.start_declared
  · exact h.isPlain.bodies_declared rule (OrderedMap.mem_values_of_get? hrule) symbol hmem

theorem declares_head (h : g.IsAugmentation a) {id : RuleId} {rule : Rule}
    (hrule : a.rules.get? id = some rule) : rule.head ∈ a.nonterminals.keys := by
  rw [h.mem_nonterminals_iff]
  rcases (h.get?_rules_iff _ _).mp hrule with ⟨-, rfl⟩ | hrule
  · exact Or.inl rfl
  · exact Or.inr (h.isPlain.heads_declared rule (OrderedMap.mem_values_of_get? hrule))

theorem endOfInput_declared (h : g.IsAugmentation a) : endOfInput ∈ a.terminals.keys := by
  rw [h.terminals_eq]
  exact OrderedMap.mem_keys_of_get? h.isPlain.endOfInput_named

end IsAugmentation

end GrammarAnalysis.Grammar

import GrammarAnalysis.Proofs.Normal.Passes
import GrammarAnalysis.Proofs.ShiftReduce.KnownRules
import GrammarAnalysis.Proofs.ShiftReduce.ValidItems

/-!
# The reserved symbol and the reserved rule along passes

A grammar counts as augmented if its start symbol has the reserved number.  Augmenting
such a grammar changes nothing, and augmenting any other one adds the reserved symbol
with the reserved rule.  The result is as it should be exactly if the reserved numbers
have been kept (`Grammar.KeepsReserved`): the reserved symbol has no rule but the
reserved one, and stands in no body.

Passes in front of augmentations keep them, because a grammar that is read from text
does not use them, and no pass hands them out.  A pass behind an augmentation does not:
it numbers the rules anew, so that the reserved rule is lost.
-/

namespace GrammarAnalysis

namespace Grammar

open Reading

variable {g a g' : Grammar} {word : List TerminalId}

/-- Whether the reserved symbol has no rule but the reserved one, has that one if it is the
start symbol, and stands in no body. -/
structure KeepsReserved (g : Grammar) : Prop where
  accepts : g.start = augmentedStart →
    ∃ n, g.rules.get? acceptRule = some ⟨augmentedStart, [.nonterminal n]⟩
  eq_acceptRule : ∀ id rule, g.rules.get? id = some rule → rule.head = augmentedStart →
    g.start = augmentedStart ∧ id = acceptRule
  unused : ∀ id rule, g.rules.get? id = some rule → .nonterminal augmentedStart ∉ rule.body

/-- Whether the grammar can be augmented: the start symbol is declared, and the reserved rule is
missing unless the grammar counts as augmented. -/
structure IsAugmentable (g : Grammar) : Prop where
  start_declared : g.start ∈ g.nonterminals.keys
  acceptRule_not_mem : g.start ≠ augmentedStart → acceptRule ∉ g.rules.keys

theorem IsAugmentable.apply (h : g.IsAugmentable) (pass : Pass) : (g.apply pass).IsAugmentable where
  start_declared := (isRebuiltInStages_apply g pass).start_declared h.start_declared
  acceptRule_not_mem := fun _ => (isRebuiltInStages_apply g pass).acceptRule_not_mem

/-- The added symbol has the words of the start symbol, since no other rule mentions it. -/
theorem AddsReserved.hasWord_iff (h : g.AddsReserved a) (hne : g.start ≠ augmentedStart)
    (hkeeps : g.KeepsReserved) : a.HasWord word ↔ g.HasWord word := by
  have hrules : a.ruleSet = g.ruleSet ∪ rulesFor augmentedStart [[.nonterminal g.start]] := by
    ext rule
    constructor
    · intro hrule
      obtain ⟨id, hid⟩ := exists_get?_of_mem_ruleSet hrule
      rcases (h.get?_rules_iff id rule).mp hid with ⟨-, rfl⟩ | hold
      · exact Or.inr ⟨rfl, List.mem_singleton_self _⟩
      · exact Or.inl (mem_ruleSet_of_get? hold)
    · rintro (hrule | ⟨hhead, hbody⟩)
      · obtain ⟨id, hid⟩ := exists_get?_of_mem_ruleSet hrule
        exact mem_ruleSet_of_get? ((h.get?_rules_iff id rule).mpr (Or.inr hid))
      · have hadded : rule = ⟨augmentedStart, [.nonterminal g.start]⟩ := by
          cases rule
          simp_all
        exact mem_ruleSet_of_get? ((h.get?_rules_iff acceptRule rule).mpr (Or.inl ⟨rfl, hadded⟩))
  have havoids : ∀ rule ∈ g.ruleSet, rule.Avoids augmentedStart := by
    intro rule hrule
    obtain ⟨id, hid⟩ := exists_get?_of_mem_ruleSet hrule
    exact ⟨fun hhead => hne (hkeeps.eq_acceptRule id rule hid hhead).1, hkeeps.unused id rule hid⟩
  have hbodies : ∀ body ∈ [[Symbol.nonterminal g.start]],
      Symbol.nonterminal augmentedStart ∉ body := by
    simpa using hne.symm
  rw [HasWord, HasWord, generates_iff_mem_least, generates_iff_mem_least, h.start_eq, hrules,
    least_union_rulesFor havoids hbodies]
  constructor
  · rintro ⟨body, hbody, hword⟩
    rw [List.mem_singleton.mp hbody, ofForm_singleton] at hword
    exact hword
  · intro hword
    refine ⟨[.nonterminal g.start], List.mem_singleton_self _, ?_⟩
    rw [ofForm_singleton]
    exact hword

/-! ## When augmenting is sound -/

theorem AddsReserved.get?_accept (h : g.AddsReserved a) :
    a.rules.get? acceptRule = some ⟨augmentedStart, [.nonterminal g.start]⟩ :=
  (h.get?_rules_iff _ _).mpr (Or.inl ⟨rfl, rfl⟩)

theorem AddsReserved.name?_eq (h : g.AddsReserved a) {symbol : Symbol}
    (hsymbol : g.Declares symbol) : a.name? symbol = g.name? symbol := by
  cases symbol with
  | terminal t => exact congrArg (fun terminals => terminals.get? t) h.terminals_eq
  | nonterminal n =>
      obtain ⟨name, hname⟩ := OrderedMap.mem_keys_iff.mp hsymbol
      exact (h.get?_nonterminals n name hname).trans hname.symm

end Grammar

end GrammarAnalysis

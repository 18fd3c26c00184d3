import Mathlib.Data.List.Sublists
import GrammarAnalysis.Proofs.Normal.Epsilon
import GrammarAnalysis.Proofs.Normal.Numbers
import GrammarAnalysis.Proofs.Normal.Unit

/-!
# How many rules the variants of a body make

Without epsilon rules there is a rule for every variant of a body, so each nullable
symbol may double the number of rules, and without unit rules a nonterminal lists
those of its targets again.  Hence the passes can need more numbers than there are,
although the grammar that they start from has only a few rules.
-/

namespace GrammarAnalysis.Grammar

variable {g : Grammar} {n m : NonterminalId} {t : TerminalId} {heads : List NonterminalId}
  {rest : List Symbol}

/-! ## Rules that leave a choice -/

/-- The rules of some heads for a terminal and any choice of the symbols behind it. -/
def choiceRules (heads : List NonterminalId) (t : TerminalId) (rest : List Symbol) : List Rule :=
  (heads ×ˢ rest.sublists).map fun choice => ⟨choice.1, .terminal t :: choice.2⟩

theorem mem_choiceRules {rule : Rule} :
    rule ∈ choiceRules heads t rest ↔ rule.head ∈ heads ∧
      ∃ kept : List Symbol, kept.Sublist rest ∧ rule.body = .terminal t :: kept := by
  rw [choiceRules, List.mem_map]
  constructor
  · rintro ⟨⟨n, kept⟩, hchoice, rfl⟩
    rw [List.mem_product, List.mem_sublists] at hchoice
    exact ⟨hchoice.1, kept, hchoice.2, rfl⟩
  · rintro ⟨hhead, kept, hkept, hbody⟩
    refine ⟨(rule.head, kept), List.mem_product.mpr ⟨hhead, List.mem_sublists.mpr hkept⟩, ?_⟩
    rw [← hbody]

theorem length_choiceRules :
    (choiceRules heads t rest).length = heads.length * 2 ^ rest.length := by
  rw [choiceRules, List.length_map, List.length_product, List.length_sublists]

theorem nodup_choiceRules (hheads : heads.Nodup) (hrest : rest.Nodup) :
    (choiceRules heads t rest).Nodup := by
  refine (hheads.product (List.nodup_sublists.mpr hrest)).map fun choice choice' h => ?_
  simp only [Rule.mk.injEq, List.cons.injEq, true_and] at h
  exact Prod.ext h.1 h.2

/-- A grammar with all these rules has as many at least. -/
theorem mul_two_pow_le_length_rules (hheads : heads.Nodup) (hrest : rest.Nodup)
    (h : ∀ rule ∈ choiceRules heads t rest, rule ∈ g.ruleSet) :
    heads.length * 2 ^ rest.length ≤ g.rules.values.length := by
  rw [← length_choiceRules (t := t)]
  exact (List.subperm_of_subset (nodup_choiceRules hheads hrest) h).length_le

/-- Too many of these rules cannot be numbered. -/
theorem not_inRange_of_choiceRules (hg : g.IsPlain) (hheads : heads.Nodup) (hrest : rest.Nodup)
    (h : ∀ rule ∈ choiceRules heads t rest, rule ∈ g.ruleSet)
    (hmany : lastNumber ≤ heads.length * 2 ^ rest.length) : ¬ g.InRange := by
  intro hrange
  have hlength := mul_two_pow_le_length_rules hheads hrest h
  have hbelow := hrange.length_rules_lt hg
  omega

/-- Whether some head has a rule with a terminal and different nullable symbols behind it. -/
structure OffersChoice (g : Grammar) (n : NonterminalId) (t : TerminalId) (rest : List Symbol) :
    Prop where
  rule_mem : ⟨n, .terminal t :: rest⟩ ∈ g.rules.values
  nodup : rest.Nodup
  nullable : ∀ s ∈ rest, counts false g.nullable s = true

instance (g : Grammar) (n : NonterminalId) (t : TerminalId) (rest : List Symbol) :
    Decidable (g.OffersChoice n t rest) :=
  decidable_of_iff (⟨n, .terminal t :: rest⟩ ∈ g.rules.values ∧ rest.Nodup ∧
      ∀ s ∈ rest, counts false g.nullable s = true)
    ⟨fun h => ⟨h.1, h.2.1, h.2.2⟩, fun h => ⟨h.1, h.2, h.3⟩⟩

namespace OffersChoice

/-- Without epsilon rules there is a rule for every choice. -/
theorem mem_withoutEpsilonRules (h : g.OffersChoice n t rest) (hg : g.IsPlain) :
    ∀ rule ∈ choiceRules [n] t rest, rule ∈ g.withoutEpsilonRules.ruleSet := by
  intro rule hrule
  obtain ⟨hhead, kept, hkept, hbody⟩ := mem_choiceRules.mp hrule
  refine ((mem_ruleSet_withoutEpsilonRules hg).2.2 rule).mpr
    ⟨_, h.rule_mem, List.mem_singleton.mp hhead, ?_⟩
  have hvariant : [.terminal t] ++ kept ∈ variants g.nullable ([.terminal t] ++ rest) :=
    append_mem_variants h.nullable hkept
  rw [hbody, mem_epsilonFreeBodies]
  exact ⟨hvariant, List.cons_ne_nil _ _, fun hunit => Symbol.noConfusion (List.cons.inj hunit).1⟩

/-- The rules double with each symbol that may be dropped. -/
theorem not_inRange (h : g.OffersChoice n t rest) (hg : g.IsPlain)
    (hmany : lastNumber ≤ 2 ^ rest.length) : ¬ g.withoutEpsilonRules.InRange := by
  apply not_inRange_of_choiceRules (mem_ruleSet_withoutEpsilonRules hg).1 (List.nodup_singleton n)
    h.nodup (h.mem_withoutEpsilonRules hg)
  rwa [List.length_singleton, Nat.one_mul]

end OffersChoice

/-! ## Room for the variants -/

/-- Removing epsilon rules comes to an end if there are numbers for all variants. -/
theorem InRange.withoutEpsilonRules? (h : g.InRange)
    (hroom : totalBy (fun rule => 2 ^ rule.body.countP (counts false g.nullable)) g.rules.values <
      lastNumber) : g.withoutEpsilonRules? = some g.withoutEpsilonRules := by
  rw [withoutEpsilonRules?_eq, if_pos]
  apply h.finish (g.adds_epsilonFree _) (Definition.nonterminals_foldl_ensureRules _ Rule.head
    (epsilonFreeBodies g.nullable) _)
  have hnext : (g.addEpsilonFree g.toDefinition).nextRule ≤
      1 + totalBy (fun rule => (epsilonFreeBodies g.nullable rule).length) g.rules.values :=
    g.toDefinition.nextRule_foldl_ensureRules_le Rule.head (epsilonFreeBodies g.nullable) _
  have hbodies : totalBy (fun rule => (epsilonFreeBodies g.nullable rule).length) g.rules.values ≤
      totalBy (fun rule => 2 ^ rule.body.countP (counts false g.nullable)) g.rules.values := by
    refine totalBy_le_totalBy fun rule _ => ?_
    rw [← length_variants]
    exact List.length_filter_le _ _
  omega

/-! ## Copies of the rules -/

/-- A rule is a variant of itself. -/
theorem mem_withoutEpsilonRules_of_unit (hg : g.IsPlain)
    (hrule : ⟨m, [.nonterminal n]⟩ ∈ g.ruleSet) (hne : m ≠ n) :
    ⟨m, [.nonterminal n]⟩ ∈ g.withoutEpsilonRules.ruleSet := by
  refine ((mem_ruleSet_withoutEpsilonRules hg).2.2 _).mpr ⟨_, hrule, rfl, ?_⟩
  rw [mem_epsilonFreeBodies]
  exact ⟨mem_variants_self _, List.cons_ne_nil _ _, by simpa using hne.symm⟩

/-- Without unit rules a nonterminal lists the rules of its target again. -/
theorem choiceRules_subset_withoutUnitRules (hg : g.IsPlain)
    (hrules : ∀ rule ∈ choiceRules [n] t rest, rule ∈ g.ruleSet)
    (hunits : ∀ m ∈ heads, m ≠ n → ⟨m, [.nonterminal n]⟩ ∈ g.ruleSet) :
    ∀ rule ∈ choiceRules heads t rest, rule ∈ g.withoutUnitRules.ruleSet := by
  rintro ⟨m, body⟩ hrule
  obtain ⟨hm, kept, hkept, rfl⟩ := mem_choiceRules.mp hrule
  have hsource : ⟨n, .terminal t :: kept⟩ ∈ g.ruleSet :=
    hrules _ (mem_choiceRules.mpr ⟨List.mem_singleton_self n, kept, hkept, rfl⟩)
  rw [(mem_ruleSet_withoutUnitRules hg).2.2, mem_unitFreeBodies]
  by_cases hmn : m = n
  · rw [hmn]
    exact ⟨hg.heads_declared _ hsource, rfl, n, Or.inl rfl, hsource⟩
  · have hunit := hunits m hm hmn
    have hm := hg.heads_declared _ hunit
    have htarget := mem_targets_unitReach_of_rule hunit (Ne.symm hmn)
    exact ⟨hm, rfl, n, Or.inr htarget, hsource⟩

end GrammarAnalysis.Grammar

import Mathlib.Data.List.Perm.Subperm
import GrammarAnalysis.Lookahead.Nullable
import GrammarAnalysis.Proofs.Derivation.Languages
import GrammarAnalysis.Proofs.Iteration.Growth

/-!
# Nullable and generating nonterminals

The heads that are collected pass by pass are the least set that is closed under
the rules: there are no more heads than rules, so the last pass adds none.  The
nullable nonterminals are those that derive the empty word, the generating ones
those that derive a word.
-/

namespace GrammarAnalysis.Grammar

open Reading

variable {g : Grammar} {terminalCounts : Bool} {found : List NonterminalId} {n : NonterminalId}

/-! ## Closing a set of heads -/

/-- One rule adds its head, if its body counts and the head is new. -/
def closeHead (terminalCounts : Bool) (found : List NonterminalId) (rule : Rule) :
    List NonterminalId :=
  if found.contains rule.head then found
  else if rule.body.all (counts terminalCounts found) then found ++ [rule.head]
  else found

theorem closeHead_eq_self_or_lt (found : List NonterminalId) (rule : Rule) :
    closeHead terminalCounts found rule = found ∨
      found.length < (closeHead terminalCounts found rule).length := by
  rw [closeHead]
  split
  · exact Or.inl rfl
  · split
    · right
      simp
    · exact Or.inl rfl

/-- If a rule adds nothing although its body counts, its head is there. -/
theorem mem_of_closeHead_eq_self {rule : Rule} (h : closeHead terminalCounts found rule = found)
    (hbody : ∀ s ∈ rule.body, counts terminalCounts found s = true) : rule.head ∈ found := by
  rw [closeHead] at h
  split at h
  · next hknown => exact List.contains_iff_mem.mp hknown
  · rw [if_pos (List.all_eq_true.mpr hbody)] at h
    simp at h

/-- Whether the collected nonterminals are heads of rules, each listed once. -/
def AreHeads (g : Grammar) (found : List NonterminalId) : Prop :=
  found.Nodup ∧ ∀ n ∈ found, n ∈ g.rules.values.map Rule.head

theorem AreHeads.length_le (h : g.AreHeads found) : found.length ≤ g.rules.size := by
  have hlength := (List.subperm_of_subset h.1 h.2).length_le
  simpa [OrderedMap.values, OrderedMap.size] using hlength

theorem AreHeads.closeHead (h : g.AreHeads found) {rule : Rule} (hrule : rule ∈ g.rules.values) :
    g.AreHeads (closeHead terminalCounts found rule) := by
  rw [Grammar.closeHead]
  split
  · exact h
  · next hnew =>
    split
    · refine ⟨List.nodup_append.mpr ⟨h.1, List.nodup_singleton _, ?_⟩, ?_⟩
      · intro n hn m hm hnm
        rw [List.mem_singleton.mp hm] at hnm
        exact hnew (List.contains_iff_mem.mpr (hnm ▸ hn))
      · rw [List.forall_mem_append, List.forall_mem_singleton]
        exact ⟨h.2, List.mem_map_of_mem hrule⟩
    · exact h

theorem AreHeads.closeHeadsStep (h : g.AreHeads found) :
    g.AreHeads (g.closeHeadsStep terminalCounts found) :=
  foldl_keeps (fun _ _ hrule h => h.closeHead hrule) h

/-- A pass adds no head, or it adds to their number. -/
theorem closeHeadsStep_eq_self_or_lt (g : Grammar) (found : List NonterminalId) :
    g.closeHeadsStep terminalCounts found = found ∨
      found.length < (g.closeHeadsStep terminalCounts found).length :=
  foldl_eq_self_or_lt (fun found rule _ => closeHead_eq_self_or_lt found rule) found

/-- The collected heads are closed under the rules. -/
theorem closed_closeHeads (hfound : g.AreHeads found) {rule : Rule} (hrule : rule ∈ g.rules.values)
    (hbody : ∀ s ∈ rule.body, counts terminalCounts (g.closeHeads terminalCounts found) s = true) :
    rule.head ∈ g.closeHeads terminalCounts found := by
  have hfixed : g.closeHeadsStep terminalCounts (g.closeHeads terminalCounts found) =
      g.closeHeads terminalCounts found :=
    step_stabilize_eq g.AreHeads List.length (fun _ h => h.closeHeadsStep)
      (fun found _ => closeHeadsStep_eq_self_or_lt g found) (fun _ h => h.length_le) hfound
      (by omega)
  exact mem_of_closeHead_eq_self (idle_of_foldl_eq_self
    (fun found rule _ => closeHead_eq_self_or_lt found rule) hfixed rule hrule) hbody

/-- What holds of the given nonterminals, and of a head if it holds of its body, holds of
all collected heads. -/
theorem closeHeads_induction {P : NonterminalId → Prop} (hfound : ∀ n ∈ found, P n)
    (hrules : ∀ rule ∈ g.rules.values, (∀ t, .terminal t ∈ rule.body → terminalCounts = true) →
      (∀ n, .nonterminal n ∈ rule.body → P n) → P rule.head) :
    ∀ n ∈ g.closeHeads terminalCounts found, P n := by
  refine stabilize_induction (P := fun found => ∀ n ∈ found, P n) (fun found hfound => ?_) _ hfound
  refine foldl_keeps (P := fun found => ∀ n ∈ found, P n) (fun found rule hrule hfound => ?_) hfound
  change ∀ n ∈ closeHead terminalCounts found rule, P n
  rw [closeHead]
  split
  · exact hfound
  · split
    · next hbody =>
      rw [List.all_eq_true] at hbody
      rw [List.forall_mem_append, List.forall_mem_singleton]
      refine ⟨hfound, hrules rule hrule (fun t ht => hbody _ ht) fun n hn => hfound n ?_⟩
      exact List.contains_iff_mem.mp (hbody _ hn)
    · exact hfound

/-! ## The two sets -/

theorem mem_epsilonHeads :
    n ∈ g.epsilonHeads ↔ ∃ rule ∈ g.rules.values, rule.body = [] ∧ rule.head = n := by
  rw [epsilonHeads, mem_distinct, List.mem_map]
  simp only [List.mem_filter, Rule.isEpsilon, List.isEmpty_iff, and_assoc]

theorem areHeads_epsilonHeads (g : Grammar) : g.AreHeads g.epsilonHeads := by
  refine ⟨nodup_distinct _, fun n hn => ?_⟩
  obtain ⟨rule, hrule, -, rfl⟩ := mem_epsilonHeads.mp hn
  exact List.mem_map_of_mem hrule

/-- The nullable nonterminals are those that derive the empty word. -/
theorem mem_nullable_iff : n ∈ g.nullable ↔ g.Generates n [] := by
  rw [generates_iff_mem_least]
  constructor
  · change n ∈ g.closeHeads false g.epsilonHeads → n ∈ {n | [] ∈ least g.ruleSet n}
    refine closeHeads_induction (fun n hn => ?_) (fun rule hrule hterminal hbody => ?_) n
    · obtain ⟨rule, hrule, hbody, rfl⟩ := mem_epsilonHeads.mp hn
      exact solves_least g.ruleSet rule hrule (by rw [hbody]; exact Language.nil_mem_one)
    · refine solves_least g.ruleSet rule hrule (nil_mem_ofForm_iff.mpr fun s hs => ?_)
      cases s with
      | terminal t => exact absurd (hterminal t hs) Bool.false_ne_true
      | nonterminal m => exact hbody m hs
  · let L : Reading := fun n => {word | word = [] → n ∈ g.nullable}
    have hL : L.Solves g.ruleSet := by
      rintro rule hrule _ hword rfl
      refine closed_closeHeads (areHeads_epsilonHeads g) hrule fun s hs => ?_
      have hempty := nil_mem_ofForm_iff.mp hword s hs
      cases s with
      | terminal t => exact absurd (Set.mem_singleton_iff.mp hempty) (List.cons_ne_nil t []).symm
      | nonterminal m => exact List.contains_iff_mem.mpr (hempty rfl)
    exact fun h => least_le hL n h rfl

/-- The generating nonterminals are those that derive a word. -/
theorem mem_generating_iff : n ∈ g.generating ↔ ∃ word, g.Generates n word := by
  simp only [generates_iff_mem_least]
  constructor
  · change n ∈ g.closeHeads true [] → n ∈ {n | ∃ word, word ∈ least g.ruleSet n}
    refine closeHeads_induction (by simp) (fun rule hrule _ hbody => ?_) n
    have hword : ∃ word, word ∈ (least g.ruleSet).ofForm rule.body := by
      refine exists_mem_ofForm_iff.mpr fun s hs => ?_
      cases s with
      | terminal t => exact ⟨[t], rfl⟩
      | nonterminal m => exact hbody m hs
    obtain ⟨word, hword⟩ := hword
    exact ⟨word, solves_least g.ruleSet rule hrule hword⟩
  · let L : Reading := fun n => {_word | n ∈ g.generating}
    have hL : L.Solves g.ruleSet := by
      intro rule hrule word hword
      refine closed_closeHeads ⟨List.nodup_nil, by simp⟩ hrule fun s hs => ?_
      obtain ⟨part, hpart⟩ := exists_mem_ofForm_iff.mp ⟨word, hword⟩ s hs
      cases s with
      | terminal t => rfl
      | nonterminal m => exact List.contains_iff_mem.mpr hpart
    rintro ⟨word, hword⟩
    exact least_le hL n hword

/-- A grammar is productive if all its nonterminals are generating. -/
theorem isProductive_iff : g.IsProductive ↔ ∀ n ∈ g.nonterminals.keys, n ∈ g.generating :=
  forall_congr' fun _ => imp_congr_right fun _ => mem_generating_iff.symm

instance : Decidable g.IsProductive := decidable_of_iff _ isProductive_iff.symm

end GrammarAnalysis.Grammar

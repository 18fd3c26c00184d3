import GrammarAnalysis.Proofs.Lookahead.Exactness
import GrammarAnalysis.Proofs.Lookahead.Nullable
import GrammarAnalysis.Proofs.Normal.Passes

/-!
# Two ways to find the nullable nonterminals

The nullable nonterminals are collected by a loop of their own, and the FIRST sets carry a
marker for the same question.  One loop adds heads to a list and passes over those that it
has, the other enlarges sets and reads a body only up to the first symbol without the
marker.

They need not be compared pass by pass.  Each ends with a description of the sentences that
vanish: a sentence has the marker exactly if each of its symbols is a nullable nonterminal
(`Grammar.epsilon_ofSentence_eq_all`).
-/

namespace GrammarAnalysis.Grammar

variable {g : Grammar} {terminalCounts : Bool} {found : List NonterminalId} {α : List Symbol}

/-! ## The loop for heads -/

theorem fst_closeHeadsPass (g : Grammar) (terminalCounts : Bool) (found : List NonterminalId) :
    (g.closeHeadsPass terminalCounts found).1 = g.closeHeadsStep terminalCounts found := by
  refine fst_applyReporting (fun found rule _ => ?_) found
  split
  · rfl
  · split <;> rfl

/-- A pass reports whether it has added a head. -/
theorem tellsGrowth_closeHeadsPass (g : Grammar) (terminalCounts : Bool)
    (found : List NonterminalId) :
    TellsGrowth List.length found (g.closeHeadsPass terminalCounts found) := by
  refine tellsGrowth_applyReporting (fun found rule _ => ?_) found
  split
  · exact .idle _ found
  · split
    · constructor <;> simp
    · exact .idle _ found

/-- The loop that collects heads ends, and it ends with those that follow from the given ones. -/
theorem settles_closeHeads (hfound : g.AreHeads found) :
    Settles (g.closeHeadsPass terminalCounts) found (g.closeHeads terminalCounts found) :=
  settles_stabilize_of_eq_self g.AreHeads List.length List.length
    (fun found _ => g.fst_closeHeadsPass terminalCounts found)
    (fun found _ => g.tellsGrowth_closeHeadsPass terminalCounts found)
    (fun _ h => h.closeHeadsStep) (fun found _ => closeHeadsStep_eq_self_or_lt g found)
    (fun found _ hsize => (closeHeadsStep_eq_self_or_lt g found).resolve_right hsize.not_gt)
    (fun _ h => h.length_le) hfound (by omega)

/-! ## Symbols that vanish -/

theorem vanishes_iff_forall : g.Vanishes α ↔ ∀ s ∈ α, g.Vanishes [s] := by
  induction α with
  | nil =>
      constructor
      · intro _ s hs
        exact absurd hs List.not_mem_nil
      · intro _
        exact .nil
  | cons s rest ih => rw [vanishes_cons_iff, ih, List.forall_mem_cons]

/-- Every nonterminal that is collected vanishes. -/
theorem vanishes_of_mem_nullable : ∀ n ∈ g.nullable, g.Vanishes [.nonterminal n] := by
  have hhead : ∀ rule ∈ g.rules.values, g.Vanishes rule.body →
      g.Vanishes [.nonterminal rule.head] := by
    intro rule hrule hbody
    obtain ⟨id, hid⟩ := OrderedMap.mem_values_iff.mp hrule
    exact .cons hid hbody .nil
  refine closeHeads_induction (fun n hn => ?_) (fun rule hrule hterminal hbody => ?_)
  · obtain ⟨rule, hrule, hbody, rfl⟩ := mem_epsilonHeads.mp hn
    apply hhead rule hrule
    rw [hbody]
    exact .nil
  · apply hhead rule hrule
    refine vanishes_iff_forall.mpr fun s hs => ?_
    cases s with
    | terminal t => exact absurd (hterminal t hs) Bool.false_ne_true
    | nonterminal m => exact hbody m hs

/-- Symbols vanish exactly if each of them is a nullable nonterminal. -/
theorem vanishes_iff_counts : g.Vanishes α ↔ ∀ s ∈ α, counts false g.nullable s = true := by
  constructor
  · intro h
    induction h with
    | nil => exact fun s hs => absurd hs List.not_mem_nil
    | cons known _ _ hinside hbehind =>
        -- A body that vanishes counts, and the list is closed under the rules.
        have hhead := closed_closeHeads (areHeads_epsilonHeads g)
          (OrderedMap.mem_values_of_get? known) hinside
        exact List.forall_mem_cons.mpr ⟨List.contains_iff_mem.mpr hhead, hbehind⟩
  · intro h
    refine vanishes_iff_forall.mpr fun s hs => ?_
    have hcounts := h s hs
    cases s with
    | terminal t => exact absurd hcounts Bool.false_ne_true
    | nonterminal n => exact vanishes_of_mem_nullable n (List.contains_iff_mem.mp hcounts)

/-- The marker of a sentence tells what the loop for heads finds out about its symbols. -/
theorem epsilon_ofSentence_eq_all (hg : g.IsClosed) :
    ((FirstSets.ofGrammar g).ofSentence α).epsilon = α.all (counts false g.nullable) := by
  rw [Bool.eq_iff_iff, FirstSets.epsilon_ofSentence_iff hg, vanishes_iff_counts, List.all_eq_true]

/-! ## Grammars that passes have made -/

/-- For every grammar that is made by passes from one that is read from text, both loops end,
the one that collects the nullable nonterminals and the one for FIRST sets.  A nonterminal is
collected exactly if it derives the empty form, and exactly if its FIRST set, which there is,
has the marker.  Nothing but nonterminals of the grammar is collected. -/
theorem nullability_agrees {text : String} (hg : ofText text = .ok g) (passes : List Pass) :
    Settles ((g.applyAll passes).closeHeadsPass false) (g.applyAll passes).epsilonHeads
      (g.applyAll passes).nullable ∧
    Settles (FirstSets.pass (g.applyAll passes)) (.initial (g.applyAll passes))
      (.ofGrammar (g.applyAll passes)) ∧
    (∀ n ∈ (g.applyAll passes).nonterminals.keys,
      (n ∈ (g.applyAll passes).nullable ↔ (g.applyAll passes).Derives [.nonterminal n] []) ∧
      ∃ set, (FirstSets.ofGrammar (g.applyAll passes)).get? (.nonterminal n) = some set ∧
        (n ∈ (g.applyAll passes).nullable ↔ set.epsilon = true)) ∧
    ∀ n ∈ (g.applyAll passes).nullable, n ∈ (g.applyAll passes).nonterminals.keys := by
  have hclosed := (isPlain_applyAll (isPlain_of_ofText hg) passes).isClosed
  generalize g.applyAll passes = g' at hclosed
  have hvanishes : ∀ n, g'.Vanishes [.nonterminal n] ↔ n ∈ g'.nullable := by
    intro n
    rw [vanishes_iff_counts, List.forall_mem_singleton]
    exact List.contains_iff_mem
  refine ⟨settles_closeHeads (areHeads_epsilonHeads g'), FirstSets.settles_ofGrammar hclosed,
    fun n hn => ⟨?_, ?_⟩, fun n hn => ?_⟩
  · rw [← hvanishes, vanishes_iff_derives]
  · refine ⟨_, FirstSets.get?_ofGrammar hclosed hn, ?_⟩
    rw [epsilon_ofSentence_eq_all hclosed, List.all_eq_true, List.forall_mem_singleton]
    exact List.contains_iff_mem.symm
  · cases (hvanishes n).mpr hn with
    | cons known _ _ => exact hclosed.head_declared known

/-- A nonterminal that vanishes through a rule that follows it, and one that left recursion
keeps from vanishing. -/
theorem nullability_agrees_recursive :
    ∃ g, ofText "S -> A A | S c\nA -> B | a A\nB -> b B | epsilon\nC -> C A\n" = .ok g ∧
      (g.applyAll [.commonPrefix]).nullable = [3, 2, 1] ∧
      (g.applyAll [.commonPrefix]).Derives [.nonterminal 1] [] ∧
      ¬ (g.applyAll [.commonPrefix]).Derives [.nonterminal 4] [] ∧
      ∃ set, (FirstSets.ofGrammar (g.applyAll [.commonPrefix])).get? (.nonterminal 1) = some set ∧
        set.epsilon = true := by
  have hcomputed : (ofText
      "S -> A A | S c\nA -> B | a A\nB -> b B | epsilon\nC -> C A\n").toOption.map (fun g =>
        ((g.applyAll [.commonPrefix]).nonterminals.keys, (g.applyAll [.commonPrefix]).nullable)) =
      some ([1, 2, 3, 4], [3, 2, 1]) := by decide +kernel
  obtain ⟨g, hg, hcomputed⟩ := exists_of_ofText hcomputed
  obtain ⟨hkeys, hnullable⟩ := Prod.mk.inj hcomputed
  obtain ⟨-, -, hagree, -⟩ := nullability_agrees hg [.commonPrefix]
  obtain ⟨hstart, set, hset, hmark⟩ := hagree 1 (by simp [hkeys])
  obtain ⟨hstuck, -⟩ := hagree 4 (by simp [hkeys])
  refine ⟨g, hg, hnullable, hstart.mp (by simp [hnullable]), ?_, set, hset,
    hmark.mp (by simp [hnullable])⟩
  rw [← hstuck, hnullable]
  decide

end GrammarAnalysis.Grammar

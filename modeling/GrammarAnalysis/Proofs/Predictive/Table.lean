import GrammarAnalysis.Predictive.Table
import GrammarAnalysis.Proofs.Lookahead.Follow
import GrammarAnalysis.Proofs.Table.Cells

/-!
# The cells of the predictive table

A rule is predicted on the terminals that start its body and, if the body
vanishes, on those that follow its head.  A cell holds only rules that are
predicted there; in a table without a conflict it holds all of them, and this is
one at most.
-/

namespace GrammarAnalysis

/-- Whether the rule can be applied to its head in front of the terminal. -/
def Grammar.Predicts (g : Grammar) (rule : Rule) (t : TerminalId) : Prop :=
  g.StartsWith t rule.body ∨ g.Vanishes rule.body ∧ g.Follows rule.head t

/-- A rule is predicted on what its body starts with, in front of what follows its head. -/
theorem Grammar.predicts_of_startsWith {g : Grammar} {rule : Rule} {t u : TerminalId}
    (hfollows : g.Follows rule.head u) (hstarts : g.StartsWith t (rule.body ++ [.terminal u])) :
    g.Predicts rule t := by
  rcases startsWith_append_iff.mp hstarts with hbody | ⟨hbody, hu⟩
  · exact Or.inl hbody
  · rw [startsWith_singleton_iff.mp hu]
    exact Or.inr ⟨hbody, hfollows⟩

namespace PredictiveTable

variable {g : Grammar}

/-! ## Registrations -/

theorem mem_lookaheads_iff (hg : g.IsClosed) {id : RuleId} {rule : Rule}
    (hrule : g.rules.get? id = some rule) {t : TerminalId} :
    t ∈ lookaheads (.ofGrammar g) (.ofGrammar g (.ofGrammar g)) rule ↔ g.Predicts rule t := by
  have hstarts := FirstSets.mem_ofSentence_iff hg (hg.body_declared hrule) (t := t)
  have hvanish := FirstSets.epsilon_ofSentence_iff hg (α := rule.body)
  have hfollow := FollowSets.mem_follow_iff hg (n := rule.head) (t := t)
  rw [lookaheads, List.mem_append, NatSet.mem_toList, hstarts, Grammar.Predicts]
  by_cases hmark : ((FirstSets.ofGrammar g).ofSentence rule.body).epsilon = true
  · rw [if_pos hmark, NatSet.mem_toList, hfollow]
    simp [hvanish.mp hmark]
  · have hnot : ¬ g.Vanishes rule.body := fun h => hmark (hvanish.mpr h)
    simp [hmark, hnot]

theorem mem_registrations_iff (hg : g.IsClosed) {n : NonterminalId} {t : TerminalId}
    {id : RuleId} :
    ((n, t), id) ∈ registrations g (.ofGrammar g) (.ofGrammar g (.ofGrammar g)) ↔
      ∃ rule, g.rules.get? id = some rule ∧ rule.head = n ∧ g.Predicts rule t := by
  rw [registrations, List.mem_flatMap]
  constructor
  · rintro ⟨⟨id', rule⟩, hentry, hmem⟩
    obtain ⟨u, hu, heq⟩ := List.mem_map.mp hmem
    obtain ⟨hkey, rfl⟩ := Prod.mk.inj heq
    obtain ⟨hhead, rfl⟩ := Prod.mk.inj hkey
    have hrule := OrderedMap.get?_eq_some_iff.mpr hentry
    exact ⟨rule, hrule, hhead, (mem_lookaheads_iff hg hrule).mp hu⟩
  · rintro ⟨rule, hrule, rfl, hpredicts⟩
    refine ⟨(id, rule), OrderedMap.get?_eq_some_iff.mp hrule, ?_⟩
    exact List.mem_map.mpr ⟨t, (mem_lookaheads_iff hg hrule).mpr hpredicts, rfl⟩

/-! ## Filling -/

/-- Filling puts into the cells only what is listed, even if it meets a conflict. -/
theorem mem_slot_of_fill {registrations : List ((NonterminalId × TerminalId) × RuleId)}
    {cells : PredictiveCells} {key : NonterminalId × TerminalId} {id : RuleId}
    (h : id ∈ ((fill cells registrations).1.slot key).values) :
    id ∈ (cells.slot key).values ∨ (key, id) ∈ registrations := by
  induction registrations generalizing cells with
  | nil => exact Or.inl h
  | cons entry rest ih =>
      have hrest : id ∈ ((Cells.register cells entry.1 entry.2).slot key).values ∨
          (key, id) ∈ rest := by
        rw [fill] at h
        split at h
        · exact Or.inl h
        · exact ih h
      rw [Cells.mem_slot_register, or_assoc] at hrest
      rw [List.mem_cons]
      exact hrest

/-- If filling meets no conflict, all registrations are made, and no cell has a conflict. -/
theorem fill_eq_none {registrations : List ((NonterminalId × TerminalId) × RuleId)}
    {cells cells' : PredictiveCells} (h : fill cells registrations = (cells', none))
    (hcells : ∀ key, (cells.slot key).isConflict = false) :
    (∀ key id, id ∈ (cells'.slot key).values ↔
      id ∈ (cells.slot key).values ∨ (key, id) ∈ registrations) ∧
    ∀ key, (cells'.slot key).isConflict = false := by
  induction registrations generalizing cells with
  | nil =>
      obtain ⟨rfl, -⟩ := Prod.mk.inj h
      exact ⟨by simp, hcells⟩
  | cons entry rest ih =>
      obtain ⟨key, id⟩ := entry
      rw [fill] at h
      by_cases hconflict : ((Cells.register cells key id).slot key).isConflict = true
      · simp [hconflict] at h
      · simp only [hconflict, Bool.false_eq_true, if_false] at h
        have hregister : ∀ other, ((Cells.register cells key id).slot other).isConflict = false := by
          intro other
          by_cases hother : other = key
          · rw [hother]
            exact Bool.eq_false_iff.mpr hconflict
          · rw [Cells.slot_register_of_ne hother]
            exact hcells other
        obtain ⟨hmem, hfree⟩ := ih h hregister
        refine ⟨fun other id' => ?_, hfree⟩
        rw [hmem, Cells.mem_slot_register, List.mem_cons, or_assoc]

/-- A cell holds only rules that are predicted there, whether the table has a conflict or not. -/
theorem exists_rule_of_rule? (hg : g.IsClosed) {n : NonterminalId} {t : TerminalId} {id : RuleId}
    (h : (ofGrammar g).rule? n t = some id) :
    ∃ rule, g.rules.get? id = some rule ∧ rule.head = n ∧ g.Predicts rule t := by
  rcases mem_slot_of_fill (Slot.mem_of_first? h) with hempty | hlisted
  · simp [Cells.slot, Slot.empty] at hempty
  · exact (mem_registrations_iff hg).mp hlisted

/-- The cells of a table without a conflict. -/
theorem slot_of_isLL1 (hg : g.IsClosed) (hll1 : (ofGrammar g).isLL1 = true)
    (n : NonterminalId) (t : TerminalId) :
    (∀ id, id ∈ ((ofGrammar g).cells.slot (n, t)).values ↔
      ∃ rule, g.rules.get? id = some rule ∧ rule.head = n ∧ g.Predicts rule t) ∧
    ((ofGrammar g).cells.slot (n, t)).isConflict = false := by
  have hnone : (fill ∅ (registrations g (.ofGrammar g) (.ofGrammar g (.ofGrammar g)))).2 =
      none := by
    simpa [isLL1, ofGrammar, ofSets] using hll1
  have hfill : fill ∅ (registrations g (.ofGrammar g) (.ofGrammar g (.ofGrammar g))) =
      ((ofGrammar g).cells, none) := Prod.ext rfl hnone
  obtain ⟨hmem, hfree⟩ := fill_eq_none hfill fun _ => rfl
  refine ⟨fun id => ?_, hfree (n, t)⟩
  rw [hmem, mem_registrations_iff hg]
  simp [Cells.slot, Slot.empty]

/-- In a table without a conflict the rule of a cell is the one that is predicted there. -/
theorem rule?_eq_some_iff (hg : g.IsClosed) (hll1 : (ofGrammar g).isLL1 = true)
    {n : NonterminalId} {t : TerminalId} {id : RuleId} :
    (ofGrammar g).rule? n t = some id ↔
      ∃ rule, g.rules.get? id = some rule ∧ rule.head = n ∧ g.Predicts rule t := by
  obtain ⟨hmem, hfree⟩ := slot_of_isLL1 hg hll1 n t
  rw [← hmem]
  exact ⟨Slot.mem_of_first?, Slot.first?_eq_of_mem hfree⟩

end PredictiveTable

end GrammarAnalysis

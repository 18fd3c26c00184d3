import GrammarAnalysis.Proofs.Predictive.Reading
import Mathlib.Logic.Relation

/-!
# Grammars that predict their rules

If the predictive table has no conflict, a nonterminal and the terminal in front of
it determine the rule.  So the tree in front of a terminal is determined as well, and
no nonterminal of it can begin its own body, directly or through the first symbols of
other predicted rules: the tree would have to contain a copy of itself.

The augmentation of such a grammar predicts its rules too.
-/

namespace GrammarAnalysis

/-! ## Forests over symbols -/

namespace ParseTree

/-- Whether the trees are parse trees of the grammar with the given roots. -/
structure IsForestOf (g : Grammar) (trees : List ParseTree) (symbols : List Symbol) : Prop where
  isTreeOf : ∀ tree ∈ trees, IsTreeOf g tree
  roots : trees.map symbol = symbols

theorem IsForestOf.eq_nil {g : Grammar} {trees : List ParseTree} (h : IsForestOf g trees []) :
    trees = [] :=
  List.map_eq_nil_iff.mp h.roots

/-- The first tree and the other ones. -/
theorem IsForestOf.exists_of_cons {g : Grammar} {trees : List ParseTree} {s : Symbol}
    {symbols : List Symbol} (h : IsForestOf g trees (s :: symbols)) :
    ∃ tree others, trees = tree :: others ∧ IsTreeOf g tree ∧ tree.symbol = s ∧
      IsForestOf g others symbols := by
  obtain ⟨htrees, hroots⟩ := h
  obtain ⟨tree, others, rfl, hroot, hothers⟩ := List.map_eq_cons_iff.mp hroots
  refine ⟨tree, others, rfl, htrees tree List.mem_cons_self, hroot, ?_, hothers⟩
  exact fun other hother => htrees other (List.mem_cons_of_mem _ hother)

theorem IsForestOf.startsWith {g : Grammar} {trees : List ParseTree} {symbols : List Symbol}
    (h : IsForestOf g trees symbols) (rest : List TerminalId) :
    g.StartsWith (Grammar.firstTerminal (leavesOfAll trees ++ rest))
      (symbols ++ [.terminal (Grammar.firstTerminal rest)]) := by
  rw [← h.roots]
  exact startsWith_firstTerminal h.isTreeOf rest

end ParseTree

open ParseTree

namespace Grammar

variable {g a : Grammar} {t u : TerminalId} {m n : NonterminalId}

/-- Whether no two rules of a nonterminal are predicted on the same terminal. -/
def IsPredictive (g : Grammar) : Prop :=
  ∀ ⦃id id' rule rule' t⦄, g.rules.get? id = some rule → g.rules.get? id' = some rule' →
    rule.head = rule'.head → g.Predicts rule t → g.Predicts rule' t → id = id'

/-- In a table without a conflict a cell has one rule at most. -/
theorem isPredictive_of_isLL1 (hg : g.IsClosed) (hll1 : (PredictiveTable.ofGrammar g).isLL1 = true) :
    g.IsPredictive := by
  intro id id' rule rule' t hrule hrule' hhead hpredicts hpredicts'
  have hcell := (PredictiveTable.rule?_eq_some_iff hg hll1).mpr ⟨rule, hrule, hhead, hpredicts⟩
  have hcell' := (PredictiveTable.rule?_eq_some_iff hg hll1).mpr ⟨rule', hrule', rfl, hpredicts'⟩
  rw [hcell] at hcell'
  exact Option.some.inj hcell'

/-! ## Left corners -/

/-- Whether a rule that is predicted on the terminal begins with the second nonterminal. -/
def LeftCorner (g : Grammar) (t : TerminalId) (m n : NonterminalId) : Prop :=
  ∃ id rule after, g.rules.get? id = some rule ∧ rule.head = m ∧ g.Predicts rule t ∧
    rule.body = .nonterminal n :: after

/-- The root of a tree does not begin its own body on the terminal that the tree brings
to the front.  By induction on the tree: its first child has the same property. -/
theorem IsPredictive.not_leftCorner_cycle (hg : g.IsPredictive) {tree : ParseTree}
    (htree : IsTreeOf g tree) (hroot : tree.symbol = .nonterminal n) {rest : List TerminalId}
    (hfollows : g.Follows n (firstTerminal rest)) :
    ¬ Relation.TransGen (g.LeftCorner (firstTerminal (tree.leaves ++ rest))) n n := by
  induction htree generalizing n rest with
  | leaf t => cases hroot
  | @node id rule children known fits below ih =>
      obtain rfl : rule.head = n := Symbol.nonterminal.inj hroot
      intro hcycle
      obtain ⟨m, hfirst, hlast⟩ := Relation.TransGen.head'_iff.mp hcycle
      rw [leaves_node] at hfirst hlast
      have hpredicts := PredictiveTable.predicts_of_children fits below hfollows
      have hcorner := hfirst
      obtain ⟨id', rule', after, known', hhead, hpredicts', hbody⟩ := hcorner
      obtain rfl := hg known known' hhead.symm hpredicts hpredicts'
      obtain rfl := Option.some.inj (known.symm.trans known')
      -- the first child is a tree of the nonterminal on the cycle
      have hchildren : IsForestOf g children rule.body := ⟨below, fits⟩
      rw [hbody] at hchildren
      obtain ⟨child, others, rfl, -, hchild, hothers⟩ := hchildren.exists_of_cons
      have hfollowsChild := follows_of_startsWith known (hbody.trans (List.nil_append _).symm)
        hfollows (hothers.startsWith rest)
      apply ih child List.mem_cons_self hchild hfollowsChild
      rw [leavesOfAll_cons, List.append_assoc] at hfirst hlast
      exact Relation.TransGen.tail' hlast hfirst

/-! ## The augmentation -/

theorem IsAugmentation.not_mem_of_get? (h : g.IsAugmentation a) {id : RuleId} {rule : Rule}
    (hrule : g.rules.get? id = some rule) : .nonterminal augmentedStart ∉ rule.body :=
  h.augmentedStart_not_mem (h.get?_of_get? hrule)

/-- The rules for other nonterminals than the reserved one are those of the plain grammar. -/
theorem IsAugmentation.get?_of_head_ne (h : g.IsAugmentation a) {id : RuleId} {rule : Rule}
    (hrule : a.rules.get? id = some rule) (hhead : rule.head ≠ augmentedStart) :
    g.rules.get? id = some rule := by
  apply ((h.get?_rules_iff _ _).mp hrule).resolve_left
  intro ⟨_, haccept⟩
  rw [haccept] at hhead
  exact hhead rfl

theorem IsAugmentation.vanishes (h : g.IsAugmentation a) {form : List Symbol}
    (hform : .nonterminal augmentedStart ∉ form) (hvanishes : a.Vanishes form) :
    g.Vanishes form := by
  induction hvanishes with
  | nil => exact .nil
  | @cons id rule rest known _ _ ihBody ihRest =>
      rw [List.mem_cons, not_or] at hform
      have hrule := h.get?_of_head_ne known fun hhead => hform.1 (by rw [hhead])
      exact .cons hrule (ihBody (h.not_mem_of_get? hrule)) (ihRest hform.2)

theorem IsAugmentation.startsWith (h : g.IsAugmentation a) {form : List Symbol}
    (hform : .nonterminal augmentedStart ∉ form) (hstarts : a.StartsWith t form) :
    g.StartsWith t form := by
  induction hstarts with
  | here rest => exact .here rest
  | @inside id rule known _ rest ih =>
      rw [List.mem_cons, not_or] at hform
      have hrule := h.get?_of_head_ne known fun hhead => hform.1 (by rw [hhead])
      exact .inside hrule (ih (h.not_mem_of_get? hrule)) rest
  | @behind s rest vanishes _ ih =>
      rw [List.mem_cons, not_or] at hform
      exact .behind (h.vanishes (by simpa using hform.1) vanishes) (ih hform.2)

/-- What follows a nonterminal in the augmentation follows it in the plain grammar, and
only the end of input follows the reserved nonterminal. -/
theorem IsAugmentation.follows (h : g.IsAugmentation a) (hfollows : a.Follows n t) :
    (n = augmentedStart ∧ t = endOfInput) ∨ g.Follows n t := by
  have haccept : ∀ {before after : List Symbol} {n : NonterminalId},
      [.nonterminal g.start] = before ++ .nonterminal n :: after → n = g.start ∧ after = [] := by
    intro before after n hsplit
    rcases List.singleton_eq_append_iff.mp hsplit with ⟨_, hcons⟩ | ⟨_, hnil⟩
    · obtain ⟨hn, hafter⟩ := List.cons.inj hcons
      exact ⟨Symbol.nonterminal.inj hn, hafter⟩
    · contradiction
  induction hfollows with
  | start => exact Or.inl ⟨h.start_eq, rfl⟩
  | @starts id rule before after n t known split starts =>
      right
      rcases (h.get?_rules_iff _ _).mp known with ⟨-, rfl⟩ | hrule
      · obtain ⟨-, rfl⟩ := haccept split
        cases starts
      · have hnot := h.not_mem_of_get? hrule
        rw [split] at hnot
        exact .starts hrule split (h.startsWith (fun hmem => hnot (by simp [hmem])) starts)
  | @inherited id rule before after n t known split vanishes _ ih =>
      right
      rcases (h.get?_rules_iff _ _).mp known with ⟨-, rfl⟩ | hrule
      · obtain ⟨rfl, -⟩ := haccept split
        rcases ih with ⟨-, rfl⟩ | hfollows
        · exact .start
        · have hdeclared := (hfollows.declared h.isPlain.isClosed).1
          exact absurd rfl (h.isPlain.nonterminals_pos _ hdeclared)
      · have hnot := h.not_mem_of_get? hrule
        rw [split] at hnot
        rcases ih with ⟨hhead, -⟩ | hfollows
        · exact absurd hhead (h.isPlain.head_ne hrule)
        · exact .inherited hrule split (h.vanishes (fun hmem => hnot (by simp [hmem])) vanishes)
            hfollows

theorem IsAugmentation.predicts (h : g.IsAugmentation a) {id : RuleId} {rule : Rule}
    (hrule : g.rules.get? id = some rule) (hpredicts : a.Predicts rule t) : g.Predicts rule t := by
  have hnot := h.not_mem_of_get? hrule
  rcases hpredicts with hstarts | ⟨hvanishes, hfollows⟩
  · exact Or.inl (h.startsWith hnot hstarts)
  · refine Or.inr ⟨h.vanishes hnot hvanishes, ?_⟩
    exact (h.follows hfollows).resolve_left fun hhead => h.isPlain.head_ne hrule hhead.1

/-- The reserved nonterminal has one rule, and the other rules are predicted as before. -/
theorem IsAugmentation.isPredictive (h : g.IsAugmentation a) (hg : g.IsPredictive) :
    a.IsPredictive := by
  intro id id' rule rule' t hrule hrule' hhead hpredicts hpredicts'
  by_cases hreserved : rule.head = augmentedStart
  · have haccept : ∀ {id rule}, a.rules.get? id = some rule → rule.head = augmentedStart →
        id = acceptRule := by
      intro id rule hrule hhead
      rcases (h.get?_rules_iff _ _).mp hrule with ⟨haccept, -⟩ | hrule
      · exact haccept
      · exact absurd hhead (h.isPlain.head_ne hrule)
    rw [haccept hrule hreserved, haccept hrule' (hhead ▸ hreserved)]
  · have hplain := h.get?_of_head_ne hrule hreserved
    have hplain' := h.get?_of_head_ne hrule' fun hreserved' => hreserved (hhead.trans hreserved')
    exact hg hplain hplain' hhead (h.predicts hplain hpredicts) (h.predicts hplain' hpredicts')

end Grammar

end GrammarAnalysis

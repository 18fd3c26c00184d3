import Mathlib.Data.List.Nodup
import GrammarAnalysis.Proofs.Derivation.Forests
import GrammarAnalysis.Proofs.Grammar.Plain

/-!
# The rules of a tree, listed from the root down

In a grammar that is read from text no two rules are equal, so every inner node
of a parse tree has one rule, and the tree has one list of rules in each order:
the rule of the root, then those of the children, from left to right or from
right to left (`ParseTree.ruleIds`).  This list is a derivation of the leaves in
its order; the tree is built from it again, and from no other derivation.
-/

namespace GrammarAnalysis

/-- The number of the rule with this head and body. -/
def Grammar.numberOf? (g : Grammar) (rule : Rule) : Option RuleId :=
  (g.rules.entries.find? fun entry => entry.2 = rule).map Prod.fst

theorem Grammar.numberOf?_eq_some {g : Grammar} (hnodup : g.rules.values.Nodup) {id : RuleId}
    {rule : Rule} (known : g.rules.get? id = some rule) : g.numberOf? rule = some id := by
  have hentry := OrderedMap.get?_eq_some_iff.mp known
  cases hfound : g.rules.entries.find? fun entry => entry.2 = rule with
  | none =>
      rw [List.find?_eq_none] at hfound
      exact absurd (decide_eq_true rfl) (hfound (id, rule) hentry)
  | some entry =>
      have hrule : entry.2 = rule := by simpa using List.find?_some hfound
      have hsame : entry = (id, rule) :=
        List.inj_on_of_nodup_map hnodup (List.mem_of_find?_eq_some hfound) hentry hrule
      rw [numberOf?, hfound, hsame, Option.map_some]

namespace ParseTree

mutual

/-- The rules of a tree in the given order: the rule at the root, then those of the children,
from left to right or from right to left. -/
def ruleIds (g : Grammar) (order : Handedness) : ParseTree → List RuleId
  | leaf _ => []
  | node n children =>
    (g.numberOf? ⟨n, children.map symbol⟩).toList ++
      (order.arrange (ruleIdsOfEach g order children)).flatten

/-- The rules of each of some trees. -/
def ruleIdsOfEach (g : Grammar) (order : Handedness) : List ParseTree → List (List RuleId)
  | [] => []
  | tree :: trees => ruleIds g order tree :: ruleIdsOfEach g order trees

end

variable {g : Grammar} {order : Handedness}

theorem ruleIdsOfEach_eq_map (trees : List ParseTree) :
    ruleIdsOfEach g order trees = trees.map (ruleIds g order) := by
  induction trees with
  | nil => rw [ruleIdsOfEach, List.map_nil]
  | cons tree trees ih => rw [ruleIdsOfEach, ih, List.map_cons]

theorem ruleIds_leaf (t : TerminalId) : ruleIds g order (.leaf t) = [] := by rw [ruleIds]

theorem ruleIds_node (hnodup : g.rules.values.Nodup) {id : RuleId} {rule : Rule}
    {children : List ParseTree} (known : g.rules.get? id = some rule)
    (fits : children.map symbol = rule.body) :
    ruleIds g order (.node rule.head children) =
      id :: ((order.arrange children).map (ruleIds g order)).flatten := by
  rw [ruleIds, fits, Grammar.numberOf?_eq_some hnodup known, ruleIdsOfEach_eq_map,
    Handedness.map_arrange]
  rfl

/-- Some trees have no other rules than these, in this order. -/
theorem RulesOf.eq_ruleIds (hnodup : g.rules.values.Nodup) {trees : List ParseTree}
    {ids : List RuleId} (h : RulesOf g order trees ids) :
    ids = (trees.map (ruleIds g order)).flatten := by
  induction h with
  | nil => rfl
  | leaf t _ ih => rw [List.map_cons, List.flatten_cons, ruleIds_leaf, ← ih, List.nil_append]
  | node known fits _ _ ihBelow ihRest =>
      rw [List.map_cons, List.flatten_cons, ruleIds_node hnodup known fits, ← ihBelow, ← ihRest,
        List.cons_append]

theorem rulesOf_iff_of_isTreeOf (hnodup : g.rules.values.Nodup) {tree : ParseTree}
    (htree : IsTreeOf g tree) {ids : List RuleId} :
    RulesOf g order [tree] ids ↔ ids = tree.ruleIds g order := by
  have hlisted : ∀ {ids}, RulesOf g order [tree] ids → ids = tree.ruleIds g order := fun h => by
    simpa using h.eq_ruleIds hnodup
  constructor
  · exact hlisted
  · rintro rfl
    obtain ⟨ids, hids⟩ := htree.exists_rulesOf order
    rwa [← hlisted hids]

end ParseTree

namespace Grammar

open ParseTree

variable {g : Grammar} {text : String} {tree : ParseTree} {n : NonterminalId}

/-- A parse tree of a grammar that has been read is built again from its rules, in either order.
Its rules derive its leaves, from left to right, from its root, and these are the leaves that are
listed with a stack.  Every derivation in this order that the tree is built from lists the same
rules and derives the same word. -/
theorem tree_of_ruleIds_exact (hg : ofText text = .ok g) (htree : tree.IsTreeOf g)
    (hroot : tree.symbol = .nonterminal n) (order : Handedness) :
    ofDerivation? g ⟨order, tree.ruleIds g order⟩ = some tree ∧
    g.DerivesBy order (tree.ruleIds g order) [.nonterminal n] (sentence tree.leaves) ∧
    tree.leavesByStack = tree.leaves ∧
    ∀ ids word, g.DerivesBy order ids [.nonterminal n] (sentence word) →
      ofDerivation? g ⟨order, ids⟩ = some tree →
        ids = tree.ruleIds g order ∧ word = tree.leaves := by
  have hnodup := (isPlain_of_ofText hg).rules_nodup
  have hrules : RulesOf g order [tree] (tree.ruleIds g order) :=
    (rulesOf_iff_of_isTreeOf hnodup htree).mpr rfl
  refine ⟨hrules.ofDerivation?_eq_of_symbol hroot, hroot ▸ hrules.derivesBy, leavesByStack_eq tree,
    fun ids word hderives hbuilt => ?_⟩
  obtain ⟨built, hsymbol, hids, hleaves⟩ := hderives.exists_tree
  have hsame : built = tree :=
    Option.some.inj ((hids.ofDerivation?_eq_of_symbol hsymbol).symm.trans hbuilt)
  subst hsame
  exact ⟨(rulesOf_iff_of_isTreeOf hnodup htree).mp hids, hleaves.symm⟩

/-- Two children of the root have no leaves, and the two orders differ behind the first rule. -/
theorem tree_of_ruleIds_exact_vanishing :
    let tree := ParseTree.node 1 [.node 2 [], .node 3 [.leaf 2, .node 3 []], .node 1 []]
    ∃ g, ofText "S -> A B S | epsilon\nA -> a | epsilon\nB -> b B | epsilon" = .ok g ∧
      tree.IsTreeOf g ∧ tree.symbol = .nonterminal 1 ∧
      ofDerivation? g ⟨.leftmost, [1, 4, 5, 6, 2]⟩ = some tree ∧
      ofDerivation? g ⟨.rightmost, [1, 2, 5, 6, 4]⟩ = some tree ∧
      g.DerivesBy .leftmost [1, 4, 5, 6, 2] [.nonterminal 1] (sentence [2]) ∧
      g.DerivesBy .rightmost [1, 2, 5, 6, 4] [.nonterminal 1] (sentence [2]) := by
  intro tree
  have hcomputed :
      (ofText "S -> A B S | epsilon\nA -> a | epsilon\nB -> b B | epsilon").toOption.map
        (fun g => ([1, 2, 4, 5, 6].map g.rules.get?, tree.ruleIds g .leftmost,
          tree.ruleIds g .rightmost)) =
      some ([some ⟨1, [.nonterminal 2, .nonterminal 3, .nonterminal 1]⟩, some ⟨1, []⟩,
        some ⟨2, []⟩, some ⟨3, [.terminal 2, .nonterminal 3]⟩, some ⟨3, []⟩],
        [1, 4, 5, 6, 2], [1, 2, 5, 6, 4]) := by decide +kernel
  obtain ⟨g, hg, hcomputed⟩ := exists_of_ofText hcomputed
  simp only [List.map_cons, List.map_nil, Prod.mk.injEq, List.cons.injEq] at hcomputed
  obtain ⟨⟨hroot, hend, hempty, hword, hstop, -⟩, hleftmost, hrightmost⟩ := hcomputed
  have htree : tree.IsTreeOf g := by
    refine .node hroot rfl (List.forall_mem_cons.mpr ⟨.node hempty rfl (by simp), ?_⟩)
    refine List.forall_mem_cons.mpr ⟨?_, List.forall_mem_singleton.mpr (.node hend rfl (by simp))⟩
    refine .node hword rfl (List.forall_mem_cons.mpr ⟨.leaf 2, ?_⟩)
    exact List.forall_mem_singleton.mpr (.node hstop rfl (by simp))
  have hleft := tree_of_ruleIds_exact hg htree rfl .leftmost
  have hright := tree_of_ruleIds_exact hg htree rfl .rightmost
  rw [hleftmost] at hleft
  rw [hrightmost] at hright
  exact ⟨g, hg, htree, rfl, hleft.1, hright.1, hleft.2.1, hright.2.1⟩

end Grammar

end GrammarAnalysis

import GrammarAnalysis.Derivation.Relation
import GrammarAnalysis.Derivation.Tree

/-!
# Parse trees of a grammar and their rules

In a parse tree of a grammar every inner node and the symbols of its children
make a rule.  Listing the rules of the nodes from the root down, the leftmost
children first or the rightmost ones first, gives the derivation that the tree
stands for.

* `ParseTree.IsTreeOf` says that a tree is a parse tree of the grammar.
* `ParseTree.RulesOf` relates some trees to the list of their rules in order.
* `ParseTree.RulesOf.derivesBy`: the rules of a tree derive its leaves from its
  root.
-/

namespace GrammarAnalysis.ParseTree

/-- Whether every inner node of the tree is made by a rule of the grammar. -/
inductive IsTreeOf (g : Grammar) : ParseTree → Prop
  | leaf (t : TerminalId) : IsTreeOf g (.leaf t)
  | node {id : RuleId} {rule : Rule} {children : List ParseTree}
      (known : g.rules.get? id = some rule) (fits : children.map symbol = rule.body)
      (below : ∀ child ∈ children, IsTreeOf g child) : IsTreeOf g (.node rule.head children)

/-- The rules of some trees, one tree after the other, each in the order in
which its rules are applied. -/
inductive RulesOf (g : Grammar) (order : Handedness) : List ParseTree → List RuleId → Prop
  | nil : RulesOf g order [] []
  | leaf {trees : List ParseTree} {ids : List RuleId} (t : TerminalId)
      (rest : RulesOf g order trees ids) : RulesOf g order (.leaf t :: trees) ids
  | node {id : RuleId} {rule : Rule} {children trees : List ParseTree} {ids more : List RuleId}
      (known : g.rules.get? id = some rule) (fits : children.map symbol = rule.body)
      (below : RulesOf g order (order.arrange children) ids) (rest : RulesOf g order trees more) :
      RulesOf g order (.node rule.head children :: trees) (id :: (ids ++ more))

@[simp] theorem leavesOfAll_nil : leavesOfAll [] = [] := by rw [leavesOfAll]

@[simp] theorem leavesOfAll_cons (tree : ParseTree) (trees : List ParseTree) :
    leavesOfAll (tree :: trees) = leaves tree ++ leavesOfAll trees := by rw [leavesOfAll]

theorem leavesOfAll_append (trees more : List ParseTree) :
    leavesOfAll (trees ++ more) = leavesOfAll trees ++ leavesOfAll more := by
  induction trees with
  | nil => simp
  | cons tree trees ih => simp [ih]

theorem leaves_leaf (t : TerminalId) : leaves (.leaf t) = [t] := by rw [leaves]

theorem leaves_node (n : NonterminalId) (children : List ParseTree) :
    leaves (.node n children) = leavesOfAll children := by rw [leaves]

/-- What is listed and what is still on the stack are always the same leaves. -/
theorem popLeaves_eq (stack : List ParseTree) (found : List TerminalId) :
    popLeaves stack found = found ++ leavesOfAll stack := by
  fun_induction popLeaves stack found with
  | case1 found => simp
  | case2 t stack found ih => rw [ih, leavesOfAll_cons, leaves_leaf, List.append_assoc]
  | case3 n children stack found ih =>
    rw [ih, leavesOfAll_append, leavesOfAll_cons, leaves_node]

/-- The stack gives the leaves from left to right. -/
theorem leavesByStack_eq (tree : ParseTree) : tree.leavesByStack = tree.leaves := by
  rw [leavesByStack, popLeaves_eq]
  simp

/-- The sentential forms of some trees, taken in the order of the derivation:
the roots at the start, the leaves at the end. -/
def Spells (g : Grammar) (order : Handedness) (trees : List ParseTree) (ids : List RuleId) : Prop :=
  g.DerivesBy order ids ((order.arrange trees).map symbol)
    (sentence (leavesOfAll (order.arrange trees)))

/-- The rules of one tree and then those of others derive what all of them spell. -/
theorem Spells.cons {g : Grammar} {order : Handedness} {tree : ParseTree} {trees : List ParseTree}
    {ids more : List RuleId}
    (here : g.DerivesBy order ids [tree.symbol] (sentence tree.leaves))
    (there : Spells g order trees more) : Spells g order (tree :: trees) (ids ++ more) := by
  cases order with
  | leftmost =>
    simp only [Spells, Handedness.arrange, List.map_cons, leavesOfAll_cons] at there ⊢
    rw [sentence_append]
    exact (here.inFrontOf (trees.map symbol)).trans (there.behind tree.leaves)
  | rightmost =>
    simp only [Spells, Handedness.arrange, List.reverse_cons, List.map_append, List.map_cons,
      List.map_nil, leavesOfAll_append, leavesOfAll_cons, leavesOfAll_nil,
      List.append_nil] at there ⊢
    rw [sentence_append]
    exact (here.rightmost_behind (trees.reverse.map symbol)).trans
      (there.rightmost_inFrontOf tree.leaves)

/-- A rule is applied to its head alone in either order. -/
theorem expandsIn_head {g : Grammar} {id : RuleId} {rule : Rule}
    (known : g.rules.get? id = some rule) (order : Handedness) :
    g.ExpandsIn order id [.nonterminal rule.head] rule.body := by
  cases order with
  | leftmost => simpa using Grammar.ExpandsIn.leftmost known [] []
  | rightmost => simpa using Grammar.ExpandsIn.rightmost known [] []

/-- The rules of some trees derive their leaves from their roots. -/
theorem RulesOf.spells {g : Grammar} {order : Handedness} {trees : List ParseTree}
    {ids : List RuleId} (h : RulesOf g order trees ids) : Spells g order trees ids := by
  induction h with
  | nil => cases order <;> exact .nil _
  | leaf t rest ih =>
    have here : g.DerivesBy order [] [(ParseTree.leaf t).symbol] (sentence (leaves (.leaf t))) := by
      rw [leaves_leaf]
      exact .nil _
    exact Spells.cons here ih
  | @node id rule children trees ids more known fits below rest ihBelow ihRest =>
    rw [Spells, Handedness.arrange_arrange, fits, ← leaves_node rule.head] at ihBelow
    exact Spells.cons (.cons (expandsIn_head known order) ihBelow) ihRest

/-- The rules of a tree derive its leaves from its root. -/
theorem RulesOf.derivesBy {g : Grammar} {order : Handedness} {tree : ParseTree}
    {ids : List RuleId} (h : RulesOf g order [tree] ids) :
    g.DerivesBy order ids [tree.symbol] (sentence tree.leaves) := by
  have := h.spells
  cases order <;> simpa [Spells, Handedness.arrange] using this

end GrammarAnalysis.ParseTree

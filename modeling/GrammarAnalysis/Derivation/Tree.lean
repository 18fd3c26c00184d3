import GrammarAnalysis.Derivation.Basic

/-!
# Parse trees

A derivation is turned into the tree of its rules.  The rules are taken in
order: each one makes a node, whose nonterminal children are built from the
rules that follow, from left to right or from right to left as the derivation
goes.
-/

namespace GrammarAnalysis

/-- A parse tree: a terminal, or a nonterminal over the trees of a body. -/
inductive ParseTree where
  | leaf (t : TerminalId)
  | node (n : NonterminalId) (children : List ParseTree)

namespace ParseTree

/-- The symbol at the root. -/
def symbol : ParseTree → Symbol
  | leaf t => .terminal t
  | node n _ => .nonterminal n

mutual

/-- The terminals at the leaves, from left to right. -/
def leaves : ParseTree → List TerminalId
  | leaf t => [t]
  | node _ children => leavesOfAll children

/-- The terminals at the leaves of some trees, from left to right. -/
def leavesOfAll : List ParseTree → List TerminalId
  | [] => []
  | tree :: trees => leaves tree ++ leavesOfAll trees

end

theorem sizeOf_append (trees more : List ParseTree) :
    sizeOf (trees ++ more) + 1 = sizeOf trees + sizeOf more := by
  induction trees with
  | nil => simp [Nat.add_comm]
  | cons tree trees ih =>
    simp only [List.cons_append, List.cons.sizeOf_spec]
    omega

/-- Takes trees off a stack until it is empty.  A leaf is listed, and a node is replaced
by its children, of which the first one comes to lie on top. -/
def popLeaves : List ParseTree → List TerminalId → List TerminalId
  | [], found => found
  | leaf t :: stack, found => popLeaves stack (found ++ [t])
  | node _ children :: stack, found => popLeaves (children ++ stack) found
termination_by stack => sizeOf stack
decreasing_by
  · simp only [List.cons.sizeOf_spec, leaf.sizeOf_spec]
    omega
  · have := sizeOf_append children stack
    simp only [List.cons.sizeOf_spec, node.sizeOf_spec]
    omega

/-- The terminals at the leaves, listed with a stack of the trees that are still to be
visited. -/
def leavesByStack (tree : ParseTree) : List TerminalId := popLeaves [tree] []

/-- Builds the trees of the symbols in turn, and returns the rules that are left. -/
def buildAll (buildNode : List RuleId → Option (ParseTree × List RuleId)) :
    List Symbol → List RuleId → Option (List ParseTree × List RuleId)
  | [], rules => some ([], rules)
  | .terminal t :: symbols, rules => do
    let (trees, rules) ← buildAll buildNode symbols rules
    return (leaf t :: trees, rules)
  | .nonterminal _ :: symbols, rules => do
    let (tree, rules) ← buildNode rules
    let (trees, rules) ← buildAll buildNode symbols rules
    return (tree :: trees, rules)

/-- Builds the tree of the first rule, of at most the given depth, and returns
the rules that are left. -/
def buildNode (g : Grammar) (order : Handedness) :
    Nat → List RuleId → Option (ParseTree × List RuleId)
  | 0, _ => none
  | _ + 1, [] => none
  | depth + 1, id :: rules => do
    let rule ← g.rules.get? id
    let (children, rules) ← buildAll (buildNode g order depth) (order.arrange rule.body) rules
    return (node rule.head (order.arrange children), rules)

/-- The tree of a derivation.  There is none if the rules end before every
nonterminal has been expanded, or if one of them is unknown to the grammar.  A
tree is no deeper than the number of its rules. -/
def ofDerivation? (g : Grammar) (derivation : Derivation) : Option ParseTree :=
  (buildNode g derivation.order derivation.rules.length derivation.rules).map Prod.fst

/-- A line of the outline: blanks for the depth, then the text. -/
def outlineLine (depth : Nat) (text : String) : String :=
  String.ofList (List.replicate (2 * depth) ' ') ++ text ++ "\n"

mutual

/-- The tree as an outline with one node per line.  A nonterminal without
children has a line `epsilon` below it. -/
def outline? (g : Grammar) (depth : Nat) : ParseTree → Option String
  | leaf t => (g.terminals.get? t).map (outlineLine depth)
  | node n [] =>
    (g.nonterminals.get? n).map fun name =>
      outlineLine depth name ++ outlineLine (depth + 1) "epsilon"
  | node n (child :: children) => do
    let name ← g.nonterminals.get? n
    let first ← outline? g (depth + 1) child
    let below ← outlineOfAll? g (depth + 1) children
    return outlineLine depth name ++ first ++ below

/-- The outlines of some trees, one below the other. -/
def outlineOfAll? (g : Grammar) (depth : Nat) : List ParseTree → Option String
  | [] => some ""
  | tree :: trees => do
    let first ← outline? g depth tree
    let below ← outlineOfAll? g depth trees
    return first ++ below

end

end ParseTree

end GrammarAnalysis

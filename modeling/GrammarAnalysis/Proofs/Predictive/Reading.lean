import GrammarAnalysis.Derivation.Run
import GrammarAnalysis.Predictive.Parser
import GrammarAnalysis.Proofs.Predictive.Table

/-!
# Reading forests from the top

In a table without a conflict the predictive parser reads the leaves of a forest
whose roots are on top of its stack, and applies the rules of the forest.  With
or without a conflict, what it answers with is a leftmost derivation of the word,
because at any time the applied rules derive the part that has been read,
followed by the stack.

* `PredictiveTable.accepts_tree` is completeness.
* `PredictiveTable.isDerivationOf_of_reaches` is soundness.
-/

namespace GrammarAnalysis

open ParseTree

/-! ## Forms in front of a terminal -/

/-- Whether the symbols can be read in front of the terminal: none of them is
the end of input, and each nonterminal is followed by what comes behind it. -/
structure Grammar.Precedes (g : Grammar) (form : List Symbol) (t : TerminalId) : Prop where
  endOfInput_not_mem : .terminal endOfInput ∉ form
  follows : ∀ {before after n u}, form = before ++ .nonterminal n :: after →
    g.StartsWith u (after ++ [.terminal t]) → g.Follows n u

namespace Grammar

variable {g : Grammar} {t : TerminalId}

theorem precedes_start (g : Grammar) : g.Precedes [.nonterminal g.start] endOfInput where
  endOfInput_not_mem := by simp
  follows := by
    intro before after n u hsplit hstarts
    cases before with
    | cons s before => simp at hsplit
    | nil =>
        obtain ⟨hn, rfl⟩ := List.cons.inj hsplit
        obtain rfl := startsWith_singleton_iff.mp hstarts
        rw [← Symbol.nonterminal.inj hn]
        exact .start

/-- The body of a rule can be read in front of what follows the head. -/
theorem IsPlain.precedes_body (hg : g.IsPlain) {id : RuleId} {rule : Rule}
    (hrule : g.rules.get? id = some rule) (hfollows : g.Follows rule.head t) :
    g.Precedes rule.body t where
  endOfInput_not_mem := hg.endOfInput_unused rule (OrderedMap.mem_values_of_get? hrule)
  follows := fun hsplit hstarts => follows_of_startsWith hrule hsplit hfollows hstarts

theorem Precedes.tail {s : Symbol} {form : List Symbol} (h : g.Precedes (s :: form) t) :
    g.Precedes form t where
  endOfInput_not_mem := fun hmem => h.endOfInput_not_mem (List.mem_cons_of_mem s hmem)
  follows := by
    rintro before after n u rfl hstarts
    exact h.follows (List.cons_append).symm hstarts

end Grammar

namespace PredictiveTable

variable {g : Grammar}

/-! ## Forests -/

theorem step_match {t : TerminalId} (hne : t ≠ endOfInput) (table : PredictiveTable)
    (stack : List Symbol) (input : List TerminalId) (applied : List RuleId) :
    table.step ⟨.terminal t :: stack, t :: input, applied⟩ = .next ⟨stack, input, applied⟩ := by
  simp [step, lookahead, hne]

theorem step_expand (hg : g.IsPlain) (hll1 : (ofGrammar g).isLL1 = true) {id : RuleId}
    {rule : Rule} (hrule : g.rules.get? id = some rule) {input : List TerminalId}
    (hpredicts : g.Predicts rule (lookahead input)) (stack : List Symbol)
    (applied : List RuleId) :
    (ofGrammar g).step ⟨.nonterminal rule.head :: stack, input, applied⟩ =
      .next ⟨rule.body ++ stack, input, id :: applied⟩ := by
  have hcell := (rule?_eq_some_iff hg.isClosed hll1).mpr ⟨rule, hrule, rfl, hpredicts⟩
  have hknown : (ofGrammar g).grammar.rules.get? id = some rule := hrule
  simp [step, hcell, hknown]

/-- The rule of a node is predicted on what the leaves of the node bring to the front. -/
theorem predicts_of_children {rule : Rule} {children : List ParseTree} {rest : List TerminalId}
    (hfits : children.map symbol = rule.body) (hchildren : ∀ child ∈ children, IsTreeOf g child)
    (hfollows : g.Follows rule.head (lookahead rest)) :
    g.Predicts rule (lookahead (leavesOfAll children ++ rest)) := by
  have hstarts := startsWith_firstTerminal hchildren rest
  rw [hfits] at hstarts
  exact Grammar.predicts_of_startsWith hfollows hstarts

/-- The parser reads the leaves of a forest and applies its rules. -/
theorem reads_forest (hg : g.IsPlain) (hll1 : (ofGrammar g).isLL1 = true)
    {trees : List ParseTree} {ids : List RuleId} (hrules : RulesOf g .leftmost trees ids)
    {rest : List TerminalId} (hprecedes : g.Precedes (trees.map symbol) (lookahead rest))
    (stack : List Symbol) (applied : List RuleId) :
    Reaches (ofGrammar g).step
      ⟨trees.map symbol ++ stack, leavesOfAll trees ++ rest, applied⟩
      ⟨stack, rest, ids.reverse ++ applied⟩ := by
  induction hrules generalizing rest stack applied with
  | nil => exact .refl _
  | @leaf trees ids t _ ih =>
      have hne : t ≠ endOfInput := by
        rintro rfl
        exact hprecedes.endOfInput_not_mem List.mem_cons_self
      rw [leavesOfAll_cons, leaves_leaf]
      exact .next (step_match hne _ _ _ _) (ih hprecedes.tail stack applied)
  | @node id rule children trees ids more known fits below hmore ihBelow ihMore =>
      -- the trees behind the node bring to the front what follows its root
      have hfollows : g.Follows rule.head (lookahead (leavesOfAll trees ++ rest)) :=
        hprecedes.follows (List.nil_append _).symm (startsWith_firstTerminal hmore.isTreeOf rest)
      have hpredicts := predicts_of_children fits below.isTreeOf hfollows
      have hbody := hg.precedes_body known hfollows
      rw [← fits] at hbody
      have hreadBelow := ihBelow hbody (trees.map symbol ++ stack) (id :: applied)
      have hreadMore := ihMore hprecedes.tail stack (ids.reverse ++ id :: applied)
      have hrulesRead : (id :: (ids ++ more)).reverse ++ applied =
          more.reverse ++ (ids.reverse ++ id :: applied) := by simp
      rw [leavesOfAll_cons, leaves_node, List.append_assoc, hrulesRead]
      refine .next (step_expand hg hll1 known hpredicts _ _) ?_
      rw [← fits]
      exact hreadBelow.trans hreadMore

/-- The parser reads a tree of the start symbol and answers with its rules. -/
theorem accepts_tree (hg : g.IsPlain) (hll1 : (ofGrammar g).isLL1 = true) {tree : ParseTree}
    {ids : List RuleId} (hrules : RulesOf g .leftmost [tree] ids)
    (hroot : tree.symbol = .nonterminal g.start) :
    ∃ last, Reaches (ofGrammar g).step ((ofGrammar g).initial tree.leaves) last ∧
      (ofGrammar g).step last = .stop (.derived ⟨.leftmost, ids⟩) := by
  have hprecedes : g.Precedes ([tree].map symbol) (lookahead []) := by
    rw [List.map_singleton, hroot]
    exact g.precedes_start
  have hread := reads_forest hg hll1 hrules hprecedes [] []
  rw [List.map_singleton, hroot, leavesOfAll_cons, leavesOfAll_nil] at hread
  simp only [List.append_nil] at hread
  exact ⟨_, hread, by simp [step]⟩

/-! ## Answers -/

/-- Whether the applied rules derive the part that has been read, followed by the stack. -/
def HasMatched (g : Grammar) (word : List TerminalId) (state : PredictiveState) : Prop :=
  ∃ read, word = read ++ state.input ∧
    g.DerivesBy .leftmost state.applied.reverse [.nonterminal g.start]
      (sentence read ++ state.stack)

/-- A step that goes on matches a terminal or expands a nonterminal by a predicted rule. -/
theorem step_eq_next (hg : g.IsPlain) {stack : List Symbol} {input : List TerminalId}
    {applied : List RuleId} {next : PredictiveState}
    (h : (ofGrammar g).step ⟨stack, input, applied⟩ = .next next) :
    (∃ t below rest, t ≠ endOfInput ∧ stack = .terminal t :: below ∧ input = t :: rest ∧
      next = ⟨below, rest, applied⟩) ∨
    ∃ id rule below, g.rules.get? id = some rule ∧ g.Predicts rule (lookahead input) ∧
      stack = .nonterminal rule.head :: below ∧
      next = ⟨rule.body ++ below, input, id :: applied⟩ := by
  cases stack with
  | nil =>
      simp only [step] at h
      split at h <;> simp at h
  | cons s below =>
      cases s with
      | terminal t =>
          left
          simp only [step] at h
          split at h
          · next hmatch =>
            obtain ⟨hsame, hne⟩ : t = lookahead input ∧ t ≠ endOfInput := by simpa using hmatch
            cases input with
            | nil => exact absurd hsame hne
            | cons u rest =>
                obtain rfl : t = u := hsame
                exact ⟨t, below, rest, hne, rfl, rfl, (StepResult.next.inj h).symm⟩
          · simp at h
      | nonterminal n =>
          right
          simp only [step] at h
          cases hcell : (ofGrammar g).rule? n (lookahead input) with
          | none => simp [hcell] at h
          | some id =>
              obtain ⟨rule, hrule, rfl, hpredicts⟩ := exists_rule_of_rule? hg.isClosed hcell
              have hknown : (ofGrammar g).grammar.rules.get? id = some rule := hrule
              simp only [hcell, hknown] at h
              exact ⟨id, rule, below, hrule, hpredicts, rfl, (StepResult.next.inj h).symm⟩

theorem HasMatched.of_reaches (hg : g.IsPlain) {word : List TerminalId}
    {state last : PredictiveState}
    (hreach : Reaches (ofGrammar g).step state last) (h : HasMatched g word state) :
    HasMatched g word last := by
  induction hreach with
  | refl => exact h
  | @next state next last hstep _ ih =>
      refine ih ?_
      obtain ⟨stack, input, applied⟩ := state
      obtain ⟨read, hword, hderives⟩ := h
      rcases step_eq_next hg hstep with
        ⟨t, below, rest, -, rfl, rfl, rfl⟩ | ⟨id, rule, below, hrule, -, rfl, rfl⟩
      · refine ⟨read ++ [t], by simpa using hword, ?_⟩
        simpa using hderives
      · refine ⟨read, hword, ?_⟩
        have hexpand := Grammar.ExpandsIn.leftmost hrule read below
        rw [List.append_assoc] at hexpand
        rw [List.reverse_cons]
        exact hderives.trans (.cons hexpand (.nil _))

/-- The parser stops with a derivation only at the end of the stack and of the input. -/
theorem step_eq_derived {state : PredictiveState} {derivation : Derivation}
    (h : (ofGrammar g).step state = .stop (.derived derivation)) :
    state.stack = [] ∧ state.input = [] ∧ derivation = ⟨.leftmost, state.applied.reverse⟩ := by
  obtain ⟨stack, input, applied⟩ := state
  cases stack with
  | nil =>
      cases input with
      | nil => exact ⟨rfl, rfl, by simpa [step, eq_comm] using h⟩
      | cons t input => simp [step] at h
  | cons s below =>
      cases s with
      | terminal t =>
          simp only [step] at h
          split at h <;> simp at h
      | nonterminal n =>
          simp only [step] at h
          split at h
          · simp at h
          · split at h <;> simp at h

/-- What the parser answers with is a leftmost derivation of the word. -/
theorem isDerivationOf_of_reaches (hg : g.IsPlain) {word : List TerminalId}
    {last : PredictiveState} {derivation : Derivation}
    (hreach : Reaches (ofGrammar g).step ((ofGrammar g).initial word) last)
    (hstop : (ofGrammar g).step last = .stop (.derived derivation)) :
    derivation.order = .leftmost ∧ g.IsDerivationOf derivation word := by
  have hinitial : HasMatched g word ((ofGrammar g).initial word) := ⟨[], rfl, .nil _⟩
  obtain ⟨read, hword, hderives⟩ := hinitial.of_reaches hg hreach
  obtain ⟨hstack, hinput, rfl⟩ := step_eq_derived hstop
  rw [hstack, List.append_nil] at hderives
  rw [hinput, List.append_nil] at hword
  rw [hword]
  exact ⟨rfl, hderives⟩

end PredictiveTable

end GrammarAnalysis

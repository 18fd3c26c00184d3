import GrammarAnalysis.Derivation.TreeRules

/-!
# The forest of a derivation

A derivation of a word is the rule list of a forest of parse trees, found by
folding the applications of rules backwards.  Hence every derived word has a
derivation in either order, and the rules of a tree rebuild the tree.

* `Grammar.DerivesBy.exists_rulesOf` folds a derivation in order.
* `Grammar.HasWord.exists_derivesBy` finds derivations in order.
* `ParseTree.RulesOf.ofDerivation?_eq` rebuilds a tree from its rules.
-/

namespace GrammarAnalysis

namespace Handedness

@[simp] theorem arrange_singleton {α : Type} (order : Handedness) (x : α) :
    order.arrange [x] = [x] := by
  cases order <;> rfl

theorem map_arrange {α β : Type} (order : Handedness) (f : α → β) (xs : List α) :
    (order.arrange xs).map f = order.arrange (xs.map f) := by
  cases order <;> simp [arrange]

theorem mem_arrange {α : Type} {order : Handedness} {xs : List α} {x : α} :
    x ∈ order.arrange xs ↔ x ∈ xs := by
  cases order <;> simp [arrange]

end Handedness

/-- Read in the order of the derivation, a rule is applied behind terminals only. -/
theorem Grammar.ExpandsIn.exists_arrange {g : Grammar} {order : Handedness} {id : RuleId}
    {form next : List Symbol} (h : g.ExpandsIn order id form next) :
    ∃ rule before after, g.rules.get? id = some rule ∧
      order.arrange form = sentence before ++ .nonterminal rule.head :: after ∧
      order.arrange next = sentence before ++ order.arrange rule.body ++ after := by
  cases h with
  | leftmost known before after =>
      exact ⟨_, before, after, known, rfl, rfl⟩
  | rightmost known before after =>
      refine ⟨_, after.reverse, before.reverse, known, ?_, ?_⟩
      · simp [Handedness.arrange, sentence]
      · simp [Handedness.arrange, sentence]

namespace ParseTree

variable {g : Grammar} {order : Handedness}

/-! ## Forests and their rules -/

theorem rulesOf_nil_iff {ids : List RuleId} : RulesOf g order [] ids ↔ ids = [] := by
  constructor
  · intro h
    cases h
    rfl
  · rintro rfl
    exact .nil

theorem rulesOf_append_iff {trees more : List ParseTree} {ids : List RuleId} :
    RulesOf g order (trees ++ more) ids ↔
      ∃ here there, ids = here ++ there ∧ RulesOf g order trees here ∧
        RulesOf g order more there := by
  constructor
  · intro h
    induction trees generalizing ids with
    | nil => exact ⟨[], ids, rfl, .nil, h⟩
    | cons tree trees ih =>
        cases h with
        | leaf t rest =>
            obtain ⟨here, there, hids, htrees, hmore⟩ := ih rest
            exact ⟨here, there, hids, .leaf t htrees, hmore⟩
        | @node id rule children _ below ids known fits hbelow rest =>
            obtain ⟨here, there, hids, htrees, hmore⟩ := ih rest
            refine ⟨id :: (below ++ here), there, ?_, .node known fits hbelow htrees, hmore⟩
            simp [hids]
  · rintro ⟨here, there, rfl, htrees, hmore⟩
    induction htrees with
    | nil => exact hmore
    | leaf t _ ih => exact .leaf t ih
    | node known fits hbelow _ _ ih =>
        have := RulesOf.node known fits hbelow ih
        simpa using this

theorem rulesOf_leaves_iff {word : List TerminalId} {ids : List RuleId} :
    RulesOf g order (word.map .leaf) ids ↔ ids = [] := by
  induction word generalizing ids with
  | nil => exact rulesOf_nil_iff
  | cons t word ih =>
      rw [List.map_cons]
      constructor
      · intro h
        cases h with
        | leaf _ rest => exact ih.mp rest
      · intro h
        exact .leaf t (ih.mpr h)

/-- Trees with terminals at their roots are leaves. -/
theorem eq_leaves_of_map_symbol {trees : List ParseTree} {word : List TerminalId}
    (h : trees.map symbol = sentence word) : trees = word.map .leaf := by
  induction trees generalizing word with
  | nil =>
      cases word with
      | nil => rfl
      | cons t word => simp at h
  | cons tree trees ih =>
      cases word with
      | nil => simp at h
      | cons t word =>
          rw [List.map_cons, sentence_cons, List.cons.injEq] at h
          cases tree with
          | leaf u =>
              have hu : u = t := by simpa [symbol] using h.1
              rw [hu, ih h.2, List.map_cons]
          | node n children => simp [symbol] at h

theorem leavesOfAll_leaves (word : List TerminalId) :
    leavesOfAll (word.map .leaf) = word := by
  induction word with
  | nil => rfl
  | cons t word ih => simp [leaves_leaf, ih]

@[simp] theorem map_symbol_leaves (word : List TerminalId) :
    (word.map leaf).map symbol = sentence word := by
  simp [sentence, symbol]

/-- A rule folds the trees of its body, behind leaves, into one tree. -/
theorem RulesOf.fold {id : RuleId} {rule : Rule} {word : List TerminalId}
    {children trees : List ParseTree} {ids : List RuleId} (known : g.rules.get? id = some rule)
    (fits : children.map symbol = order.arrange rule.body)
    (h : RulesOf g order (word.map .leaf ++ children ++ trees) ids) :
    RulesOf g order (word.map .leaf ++ .node rule.head (order.arrange children) :: trees)
      (id :: ids) := by
  obtain ⟨here, there, rfl, hfront, htrees⟩ := rulesOf_append_iff.mp h
  obtain ⟨none, below, rfl, hleaves, hbelow⟩ := rulesOf_append_iff.mp hfront
  obtain rfl := rulesOf_leaves_iff.mp hleaves
  refine rulesOf_append_iff.mpr ⟨[], _, rfl, hleaves, ?_⟩
  refine RulesOf.node known ?_ ?_ htrees
  · rw [Handedness.map_arrange, fits, Handedness.arrange_arrange]
  · rw [Handedness.arrange_arrange]
    simpa using hbelow

theorem leaves_arrange_fold (order : Handedness) {n : NonterminalId}
    (before children after : List ParseTree) :
    leavesOfAll (order.arrange (before ++ .node n (order.arrange children) :: after)) =
      leavesOfAll (order.arrange (before ++ children ++ after)) := by
  cases order <;> simp [Handedness.arrange, leavesOfAll_append, leaves_node]

end ParseTree

open ParseTree

/-- A derivation of a word lists the rules of a forest over the word. -/
theorem Grammar.DerivesBy.exists_rulesOf {g : Grammar} {order : Handedness} {ids : List RuleId}
    {form : List Symbol} {word : List TerminalId}
    (h : g.DerivesBy order ids form (sentence word)) :
    ∃ trees, trees.map symbol = order.arrange form ∧ RulesOf g order trees ids ∧
      leavesOfAll (order.arrange trees) = word := by
  generalize hlast : sentence word = last at h
  induction h with
  | nil form =>
      subst hlast
      refine ⟨order.arrange (word.map .leaf), ?_, ?_, ?_⟩
      · rw [Handedness.map_arrange, map_symbol_leaves]
      · rw [← Handedness.map_arrange]
        exact rulesOf_leaves_iff.mpr rfl
      · rw [Handedness.arrange_arrange, leavesOfAll_leaves]
  | @cons id ids form next last first rest ih =>
      obtain ⟨trees, hroots, hrules, hleaves⟩ := ih hlast
      obtain ⟨rule, before, after, known, hform, hnext⟩ := first.exists_arrange
      rw [hnext] at hroots
      obtain ⟨front, back, rfl, hfront, hback⟩ := List.map_eq_append_iff.mp hroots
      obtain ⟨read, children, rfl, hread, hchildren⟩ := List.map_eq_append_iff.mp hfront
      obtain rfl := eq_leaves_of_map_symbol hread
      refine ⟨_, ?_, hrules.fold known hchildren, ?_⟩
      · rw [hform, List.map_append, List.map_cons, map_symbol_leaves, hback]
        rfl
      · rw [leaves_arrange_fold, hleaves]

/-- A derivation of a word from one symbol lists the rules of a tree over the word. -/
theorem Grammar.DerivesBy.exists_tree {g : Grammar} {order : Handedness} {ids : List RuleId}
    {s : Symbol} {word : List TerminalId}
    (h : g.DerivesBy order ids [s] (sentence word)) :
    ∃ tree, tree.symbol = s ∧ RulesOf g order [tree] ids ∧ tree.leaves = word := by
  obtain ⟨trees, hroots, hrules, hleaves⟩ := h.exists_rulesOf
  rw [Handedness.arrange_singleton] at hroots
  obtain ⟨tree, rfl, hroot⟩ := List.map_eq_singleton_iff.mp hroots
  exact ⟨tree, hroot, hrules, by simpa using hleaves⟩

namespace ParseTree

variable {g : Grammar} {order : Handedness}

/-! ## Trees of derivations without an order -/

/-- The rules of a forest are rules of the grammar. -/
theorem RulesOf.exists_rule {trees : List ParseTree} {ids : List RuleId}
    (h : RulesOf g order trees ids) : ∀ id ∈ ids, ∃ rule, g.rules.get? id = some rule := by
  induction h with
  | nil => simp
  | leaf t _ ih => exact ih
  | node known _ _ _ ihBelow ihRest =>
      intro id hid
      rcases List.mem_cons.mp hid with rfl | hid
      · exact ⟨_, known⟩
      · rcases List.mem_append.mp hid with hid | hid
        · exact ihBelow id hid
        · exact ihRest id hid

theorem RulesOf.isTreeOf {trees : List ParseTree} {ids : List RuleId}
    (h : RulesOf g order trees ids) : ∀ tree ∈ trees, IsTreeOf g tree := by
  induction h with
  | nil => simp
  | leaf t _ ih =>
      intro tree htree
      rcases List.mem_cons.mp htree with rfl | htree
      · exact .leaf t
      · exact ih tree htree
  | node known fits _ _ ihBelow ihRest =>
      intro tree htree
      rcases List.mem_cons.mp htree with rfl | htree
      · exact .node known fits fun child hchild =>
          ihBelow child (Handedness.mem_arrange.mpr hchild)
      · exact ihRest tree htree

theorem exists_rulesOf_of_forall {trees : List ParseTree}
    (h : ∀ tree ∈ trees, ∃ ids, RulesOf g order [tree] ids) :
    ∃ ids, RulesOf g order trees ids := by
  induction trees with
  | nil => exact ⟨[], .nil⟩
  | cons tree trees ih =>
      obtain ⟨here, hhere⟩ := h tree (by simp)
      obtain ⟨there, hthere⟩ := ih fun t ht => h t (List.mem_cons_of_mem _ ht)
      exact ⟨here ++ there, rulesOf_append_iff.mpr ⟨here, there, rfl, hhere, hthere⟩⟩

/-- The rules of a tree can be listed in either order. -/
theorem IsTreeOf.exists_rulesOf {tree : ParseTree} (h : IsTreeOf g tree) (order : Handedness) :
    ∃ ids, RulesOf g order [tree] ids := by
  induction h with
  | leaf t => exact ⟨[], .leaf t .nil⟩
  | @node id rule children known fits _ ih =>
      obtain ⟨ids, hids⟩ := exists_rulesOf_of_forall fun child hchild =>
        ih child (Handedness.mem_arrange.mp hchild)
      exact ⟨_, .node known fits hids .nil⟩

end ParseTree

/-- The derived words are the leaves of forests. -/
theorem Grammar.Derives.exists_trees {g : Grammar} {form : List Symbol} {word : List TerminalId}
    (h : g.Derives form (sentence word)) :
    ∃ trees, trees.map symbol = form ∧ (∀ tree ∈ trees, IsTreeOf g tree) ∧
      leavesOfAll trees = word := by
  generalize hlast : sentence word = last at h
  induction h with
  | refl form =>
      subst hlast
      refine ⟨word.map .leaf, map_symbol_leaves word, ?_, leavesOfAll_leaves word⟩
      intro tree htree
      obtain ⟨t, -, rfl⟩ := List.mem_map.mp htree
      exact .leaf t
  | step first _ ih =>
      obtain ⟨trees, hroots, htrees, hleaves⟩ := ih hlast
      cases first with
      | @intro rule known before after =>
          obtain ⟨front, back, rfl, hfront, hback⟩ := List.map_eq_append_iff.mp hroots
          obtain ⟨left, children, rfl, hleft, hchildren⟩ := List.map_eq_append_iff.mp hfront
          -- the trees over the body become the children of one node
          refine ⟨left ++ .node rule.head children :: back, ?_, ?_, ?_⟩
          · rw [List.map_append, List.map_cons, hleft, hback]
            rfl
          · intro tree htree
            rcases List.mem_append.mp htree with htree | htree
            · exact htrees tree (by simp [htree])
            · rcases List.mem_cons.mp htree with rfl | htree
              · exact .node known hchildren fun child hchild => htrees child (by simp [hchild])
              · exact htrees tree (by simp [htree])
          · rw [← hleaves]
            simp [leavesOfAll_append, leaves_node]

/-- A form derives its words in either order. -/
theorem Grammar.Derives.exists_derivesBy {g : Grammar} {form : List Symbol}
    {word : List TerminalId} (h : g.Derives form (sentence word)) (order : Handedness) :
    ∃ ids, g.DerivesBy order ids form (sentence word) := by
  obtain ⟨trees, rfl, htrees, rfl⟩ := h.exists_trees
  obtain ⟨ids, hids⟩ := exists_rulesOf_of_forall fun tree htree =>
    (htrees tree (Handedness.mem_arrange.mp htree)).exists_rulesOf order
  have hspells := hids.spells
  rw [Spells, Handedness.arrange_arrange] at hspells
  exact ⟨ids, hspells⟩

/-- Every word of the language has a derivation in either order. -/
theorem Grammar.HasWord.exists_derivesBy {g : Grammar} {word : List TerminalId}
    (h : g.HasWord word) (order : Handedness) :
    ∃ ids, g.DerivesBy order ids [.nonterminal g.start] (sentence word) :=
  Grammar.Derives.exists_derivesBy h order

namespace ParseTree

variable {g : Grammar} {order : Handedness}

/-! ## Rebuilding trees -/

/-- The rules of a forest rebuild the forest. -/
theorem RulesOf.buildAll_eq {trees : List ParseTree} {ids : List RuleId}
    (h : RulesOf g order trees ids) {depth : Nat} (hdepth : ids.length ≤ depth)
    (rest : List RuleId) :
    buildAll (buildNode g order depth) (trees.map symbol) (ids ++ rest) =
      some (trees, rest) := by
  induction h generalizing depth rest with
  | nil => simp [buildAll]
  | leaf t _ ih => simp [symbol, buildAll, ih hdepth]
  | @node id rule children trees ids more known fits _ _ ihBelow ihRest =>
      obtain ⟨depth, rfl⟩ : ∃ d, depth = d + 1 := ⟨depth - 1, by simp at hdepth; omega⟩
      simp only [List.length_cons, List.length_append] at hdepth
      have hnode : buildNode g order (depth + 1) (id :: (ids ++ (more ++ rest))) =
          some (.node rule.head children, more ++ rest) := by
        have hlength : ids.length ≤ depth := by omega
        have hbelow := ihBelow hlength (more ++ rest)
        rw [Handedness.map_arrange, fits] at hbelow
        simp [buildNode, known, hbelow, Handedness.arrange_arrange]
      have hmore : more.length ≤ depth + 1 := by omega
      simp [symbol, buildAll, hnode, ihRest hmore]

/-- The rules of a tree rebuild the tree. -/
theorem RulesOf.ofDerivation?_eq {n : NonterminalId} {children : List ParseTree}
    {ids : List RuleId} (h : RulesOf g order [.node n children] ids) :
    ofDerivation? g ⟨order, ids⟩ = some (.node n children) := by
  have hbuilt := h.buildAll_eq (Nat.le_refl _) []
  rw [List.append_nil] at hbuilt
  simp only [List.map_cons, List.map_nil, symbol, buildAll] at hbuilt
  cases hnode : buildNode g order ids.length ids with
  | none => simp [hnode] at hbuilt
  | some built => simp_all [ofDerivation?]

theorem RulesOf.ofDerivation?_eq_of_symbol {tree : ParseTree} {n : NonterminalId}
    {ids : List RuleId} (h : RulesOf g order [tree] ids) (hroot : tree.symbol = .nonterminal n) :
    ofDerivation? g ⟨order, ids⟩ = some tree := by
  cases tree with
  | leaf t => simp [symbol] at hroot
  | node n children => exact h.ofDerivation?_eq

end ParseTree

end GrammarAnalysis

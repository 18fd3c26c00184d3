import Mathlib.Order.Bounds.Defs
import GrammarAnalysis.Proofs.Grammar.Augmentation
import GrammarAnalysis.Proofs.Item.Passes

/-!
# The closure is the least closed set

A set of items is closed if every rule whose head is expected by some item begins in the
set, with all terminals as lookaheads that can come after this head.  Every closed set
around a set of items has what a round adds to the set, and the last round adds nothing.
The closure is therefore the least closed set around the items (`Grammar.closure_isLeast`),
and closing a set is a monotone and idempotent operation.

An item without lookaheads also calls for other items: these have no lookaheads from it.
-/

namespace GrammarAnalysis

namespace Grammar

/-- Whether the marker of the item stands in front of the head of a rule, with the symbols
`after` behind the head. -/
def StandsBefore (g : Grammar) (item : Item) (id : RuleId) (after : List Symbol) : Prop :=
  ∃ parent rule, g.rules.get? item.rule = some parent ∧ g.rules.get? id = some rule ∧
    parent.body.drop item.marker = .nonterminal rule.head :: after

end Grammar

/-- Whether the set has all that its items call for. -/
structure ItemSet.IsClosed (g : Grammar) (first : FirstSets) (items : ItemSet) : Prop where
  /-- Every rule with an expected head begins in the set. -/
  core : ∀ item ∈ items.cores, ∀ id after, g.StandsBefore item id after →
    Item.initial id ∈ items.cores
  /-- What can come after the head, up to a lookahead of the item, is a lookahead of the rule. -/
  lookahead : ∀ item l, items.Looks item l → ∀ id after, g.StandsBefore item id after →
    ∀ t ∈ (first.ofSentence (after ++ [.terminal l])).terminals, items.Looks (Item.initial id) t

namespace Grammar

variable {g : Grammar} {first : FirstSets} {items others : ItemSet} {item j : Item}
  {n : NonterminalId} {id : RuleId} {after : List Symbol}

/-! ## Items that call for others -/

theorem StandsBefore.spawns (h : g.StandsBefore item id after) :
    ∃ n, g.next? item = some (.nonterminal n) ∧ Item.initial id ∈ g.initialItems n ∧
      g.afterNext item = after := by
  obtain ⟨parent, rule, hparent, hrule, hsplit⟩ := h
  have hnext : g.next? item = some (.nonterminal rule.head) := by
    rw [next?, bodyOf_eq hparent, ← List.head?_drop, hsplit, List.head?_cons]
  refine ⟨rule.head, hnext, mem_initialItems.mpr ⟨rule, hrule, rfl, rfl⟩, ?_⟩
  have hafter := drop_marker_of_next? hnext
  rw [bodyOf_eq hparent, hsplit] at hafter
  exact (List.cons.inj hafter).2.symm

theorem exists_standsBefore (hnext : g.next? item = some (.nonterminal n))
    (hj : j ∈ g.initialItems n) :
    ∃ id, j = Item.initial id ∧ g.StandsBefore item id (g.afterNext item) := by
  obtain ⟨parent, hparent, -⟩ := exists_rule_of_next? hnext
  obtain ⟨rule, hrule, rfl, hmarker⟩ := mem_initialItems.mp hj
  refine ⟨j.rule, ?_, parent, rule, hparent, hrule, ?_⟩
  · rw [Item.initial, ← hmarker]
  · rw [← bodyOf_eq hparent]
    exact drop_marker_of_next? hnext

/-! ## Closed sets -/

/-- A closed set around a set of items has what a round adds to them. -/
theorem closureStep_le (h : items ≤ others) (hothers : others.IsClosed g first) :
    g.closureStep first items ≤ others := by
  constructor
  · intro item hitem
    rcases closureStep_cases.1 hitem with hold | ⟨parent, hparent, n, hnext, hspawned⟩
    · exact h.1 item hold
    · obtain ⟨id, rfl, hstands⟩ := exists_standsBefore hnext hspawned
      exact hothers.core parent (h.1 parent hparent) id _ hstands
  · intro item t hlooks
    rcases closureStep_cases.2 t hlooks with hold | ⟨parent, l, n, hl, hnext, hspawned, ht⟩
    · exact h.2 item t hold
    · obtain ⟨id, rfl, hstands⟩ := exists_standsBefore hnext hspawned
      exact hothers.lookahead parent l (h.2 parent l hl) id _ hstands t ht

/-- A set to which a round adds nothing is closed. -/
theorem isClosed_of_closureStep_le (h : g.closureStep first items ≤ items) :
    items.IsClosed g first where
  core := by
    intro item hitem id after hstands
    obtain ⟨n, hnext, hinitial, -⟩ := hstands.spawns
    exact h.1 _ (core_closureStep hitem hnext hinitial)
  lookahead := by
    intro item l hl id after hstands t ht
    obtain ⟨n, hnext, hinitial, rfl⟩ := hstands.spawns
    exact h.2 _ t (looks_closureStep hl hnext hinitial ht)

/-! ## The closure -/

theorem le_closure (first : FirstSets) (items : ItemSet) : items ≤ g.closure first items :=
  stabilize_induction (P := fun found => items ≤ found)
    (fun found h => h.trans (le_closureStep first found)) _ (le_refl items)

theorem isClosed_closure (hg : g.IsClosed) (items : ItemSet) :
    (g.closure (.ofGrammar g) items).IsClosed g (.ofGrammar g) :=
  isClosed_of_closureStep_le (closureStep_closure hg items).le

/-- The closure of some items is the least closed set around them. -/
theorem closure_isLeast (hg : g.IsClosed) (items : ItemSet) :
    IsLeast {others : ItemSet | items ≤ others ∧ others.IsClosed g (.ofGrammar g)}
      (g.closure (.ofGrammar g) items) := by
  constructor
  · exact ⟨le_closure _ items, isClosed_closure hg items⟩
  · rintro others ⟨hitems, hclosed⟩
    exact stabilize_induction (P := fun found => found ≤ others)
      (fun found h => closureStep_le h hclosed) _ hitems

theorem closure_mono (hg : g.IsClosed) (h : items ≤ others) :
    g.closure (.ofGrammar g) items ≤ g.closure (.ofGrammar g) others :=
  (closure_isLeast hg items).2 ⟨h.trans (le_closure _ others), isClosed_closure hg others⟩

theorem closure_closure (hg : g.IsClosed) (items : ItemSet) :
    g.closure (.ofGrammar g) (g.closure (.ofGrammar g) items) =
      g.closure (.ofGrammar g) items :=
  stabilize_of_fixed (closureStep_closure hg items) _

/-! ## Grammars that are read from text -/

/-- In the augmented grammar of a text, the FIRST set of the rest of a body, up to a lookahead,
holds the terminals that start the forms derived from it.  The passes that close a set of items
come to an end for every set.  The closure is the least set that has the items with their
lookaheads and is closed, closing it once more changes nothing, and the closure of a larger set
lacks nothing that it has. -/
theorem exists_least_closure {text : String} {g : Grammar} (hg : ofText text = .ok g) :
    ∃ a, g.augmented? = some a ∧
      (∀ id rule, a.rules.get? id = some rule → ∀ marker, ∀ l ∈ a.terminals.keys, ∀ t,
        t ∈ ((FirstSets.ofGrammar a).ofSentence
            (rule.body.drop marker ++ [.terminal l])).terminals ↔
          ∃ rest, a.Derives (rule.body.drop marker ++ [.terminal l]) (.terminal t :: rest)) ∧
      ∀ items : ItemSet,
        Settles (a.closurePass (.ofGrammar a)) items (a.closure (.ofGrammar a) items) ∧
        IsLeast {others : ItemSet | items ≤ others ∧ others.IsClosed a (.ofGrammar a)}
          (a.closure (.ofGrammar a) items) ∧
        a.closure (.ofGrammar a) (a.closure (.ofGrammar a) items) =
          a.closure (.ofGrammar a) items ∧
        ∀ others, items ≤ others →
          a.closure (.ofGrammar a) items ≤ a.closure (.ofGrammar a) others := by
  obtain ⟨a, haccept, h⟩ := (isPlain_of_ofText hg).exists_isAugmentation
  have hclosed := h.isClosed
  refine ⟨a, augmented?_of_withAcceptRule? haccept, ?_, fun items => ?_⟩
  · intro id rule hrule marker l hl t
    rw [FirstSets.mem_ofSentence_iff hclosed, startsWith_iff_derives]
    intro symbol hsymbol
    rcases List.mem_append.mp hsymbol with hsymbol | hsymbol
    · exact hclosed.body_declared hrule symbol (List.mem_of_mem_drop hsymbol)
    · rw [List.mem_singleton.mp hsymbol]
      exact hl
  · exact ⟨settles_closure hclosed items, closure_isLeast hclosed items,
      closure_closure hclosed items, fun others => closure_mono hclosed⟩

/-- Left recursion in a circle, behind nonterminals that vanish.  Without the lookahead of the
reserved rule the closure lacks all lookaheads, but no items. -/
theorem exists_least_closure_recursive :
    ∃ g a, ofText "S -> A b | S c A\nA -> S A | epsilon\n" = .ok g ∧ g.augmented? = some a ∧
      (a.closure (.ofGrammar a) (.ofList [(Item.initial acceptRule, .singleton 0)])).entries.map
          (fun entry => (entry.1.rule, entry.2.toList)) =
        [(0, [0]), (1, [0, 1, 2]), (2, [0, 1, 2]), (3, [1]), (4, [1])] ∧
      (a.closure (.ofGrammar a) (.ofList [(Item.initial acceptRule, ∅)])).entries.map
          (fun entry => (entry.1.rule, entry.2.toList)) =
        [(0, []), (1, []), (2, []), (3, []), (4, [])] ∧
      IsLeast {others : ItemSet | .ofList [(Item.initial acceptRule, .singleton 0)] ≤ others ∧
          others.IsClosed a (.ofGrammar a)}
        (a.closure (.ofGrammar a) (.ofList [(Item.initial acceptRule, .singleton 0)])) ∧
      a.closure (.ofGrammar a) (.ofList [(Item.initial acceptRule, ∅)]) ≤
        a.closure (.ofGrammar a) (.ofList [(Item.initial acceptRule, .singleton 0)]) := by
  have hcomputed : (ofText "S -> A b | S c A\nA -> S A | epsilon\n").toOption.map
      (fun g => g.augmented?.map fun a =>
        ([NatSet.singleton 0, ∅].map fun known => (a.closure (.ofGrammar a)
          (.ofList [(Item.initial acceptRule, known)])).entries.map
            fun entry => (entry.1.rule, entry.2.toList))) =
      some (some [[(0, [0]), (1, [0, 1, 2]), (2, [0, 1, 2]), (3, [1]), (4, [1])],
        [(0, []), (1, []), (2, []), (3, []), (4, [])]]) := by decide +kernel
  obtain ⟨g, hg, hcomputed⟩ := exists_of_ofText hcomputed
  obtain ⟨a, haugmented, -, hexact⟩ := exists_least_closure hg
  rw [haugmented, Option.map_some, Option.some.injEq] at hcomputed
  simp only [List.map_cons, List.map_nil, List.cons.injEq, and_true] at hcomputed
  obtain ⟨hwith, hwithout⟩ := hcomputed
  obtain ⟨-, hleast, -, -⟩ := hexact (.ofList [(Item.initial acceptRule, .singleton 0)])
  obtain ⟨-, -, -, hmono⟩ := hexact (.ofList [(Item.initial acceptRule, ∅)])
  refine ⟨g, a, hg, haugmented, hwith, hwithout, hleast, hmono _ ⟨?_, ?_⟩⟩
  · intro item hitem
    simpa [ItemSet.mem_cores_ofList] using hitem
  · intro item t hlooks
    simp [ItemSet.looks_ofList] at hlooks

end Grammar

end GrammarAnalysis

import GrammarAnalysis.Item.Validity
import GrammarAnalysis.Proofs.Derivation.Forests
import GrammarAnalysis.Proofs.Grammar.Augmentation

/-!
# How sentential forms vanish and start

A list of symbols vanishes if it derives the empty form, and it starts with a
terminal if it derives a form that does.  Both are described here by the rules
that are needed, which is what the FIRST sets are compared with.

* `Grammar.vanishes_iff_derives` and `Grammar.startsWith_iff_derives` compare
  the descriptions with derivations.
* `ParseTree.startsWith_firstTerminal` reads the first leaf off a forest.
-/

namespace GrammarAnalysis

namespace Grammar

/-- Whether some rules rewrite the symbols to nothing. -/
inductive Vanishes (g : Grammar) : List Symbol → Prop
  | nil : Vanishes g []
  | cons {id : RuleId} {rule : Rule} {rest : List Symbol} (known : g.rules.get? id = some rule)
      (inside : Vanishes g rule.body) (behind : Vanishes g rest) :
      Vanishes g (.nonterminal rule.head :: rest)

/-- Whether some rules bring the terminal to the front of the symbols. -/
inductive StartsWith (g : Grammar) (t : TerminalId) : List Symbol → Prop
  | here (rest : List Symbol) : StartsWith g t (.terminal t :: rest)
  | inside {id : RuleId} {rule : Rule} (known : g.rules.get? id = some rule)
      (starts : StartsWith g t rule.body) (rest : List Symbol) :
      StartsWith g t (.nonterminal rule.head :: rest)
  | behind {s : Symbol} {rest : List Symbol} (vanishes : Vanishes g [s])
      (starts : StartsWith g t rest) : StartsWith g t (s :: rest)

variable {g : Grammar} {t : TerminalId}

/-! ## Lists of symbols -/

theorem vanishes_append_iff {front back : List Symbol} :
    g.Vanishes (front ++ back) ↔ g.Vanishes front ∧ g.Vanishes back := by
  constructor
  · intro h
    induction front with
    | nil => exact ⟨.nil, h⟩
    | cons s front ih =>
        cases h with
        | cons known inside behind =>
            obtain ⟨hfront, hback⟩ := ih behind
            exact ⟨.cons known inside hfront, hback⟩
  · rintro ⟨hfront, hback⟩
    induction hfront with
    | nil => exact hback
    | cons known inside _ _ ih => exact .cons known inside ih

theorem vanishes_cons_iff {s : Symbol} {rest : List Symbol} :
    g.Vanishes (s :: rest) ↔ g.Vanishes [s] ∧ g.Vanishes rest := by
  rw [← List.singleton_append]
  exact vanishes_append_iff

theorem not_vanishes_terminal : ¬ g.Vanishes [.terminal t] := by
  intro h
  cases h

theorem startsWith_append_iff {front back : List Symbol} :
    g.StartsWith t (front ++ back) ↔
      g.StartsWith t front ∨ g.Vanishes front ∧ g.StartsWith t back := by
  constructor
  · intro h
    induction front with
    | nil => exact Or.inr ⟨.nil, h⟩
    | cons s front ih =>
        cases h with
        | here _ => exact Or.inl (.here _)
        | inside known starts _ => exact Or.inl (.inside known starts _)
        | behind vanishes starts =>
            rcases ih starts with hfront | ⟨hfront, hback⟩
            · exact Or.inl (.behind vanishes hfront)
            · exact Or.inr ⟨vanishes_cons_iff.mpr ⟨vanishes, hfront⟩, hback⟩
  · rintro (hfront | ⟨hfront, hback⟩)
    · induction hfront with
      | here rest => exact .here _
      | inside known starts rest _ => exact .inside known starts _
      | behind vanishes _ ih => exact .behind vanishes ih
    · induction hfront with
      | nil => exact hback
      | cons known inside _ _ ih => exact .behind (.cons known inside .nil) ih

theorem startsWith_cons_iff {s : Symbol} {rest : List Symbol} :
    g.StartsWith t (s :: rest) ↔
      g.StartsWith t [s] ∨ g.Vanishes [s] ∧ g.StartsWith t rest := by
  rw [← List.singleton_append]
  exact startsWith_append_iff

theorem startsWith_singleton_iff {u : TerminalId} : g.StartsWith t [.terminal u] ↔ t = u := by
  constructor
  · intro h
    cases h with
    | here _ => rfl
    | behind _ starts => cases starts
  · rintro rfl
    exact .here _

/-- A front part that starts with what comes next starts with any symbols that
bring what comes next to the front. -/
theorem StartsWith.replace {u : TerminalId} {front back : List Symbol}
    (h : g.StartsWith t (front ++ [.terminal u])) (hback : g.StartsWith u back) :
    g.StartsWith t (front ++ back) := by
  rw [startsWith_append_iff] at h ⊢
  rcases h with h | ⟨hvanish, h⟩
  · exact Or.inl h
  · rw [startsWith_singleton_iff.mp h]
    exact Or.inr ⟨hvanish, hback⟩

/-- What starts the body of a rule also starts its head and what is behind it. -/
theorem startsWith_head_of_body {id : RuleId} {rule : Rule} {u : TerminalId}
    {behind : List Symbol} (hrule : g.rules.get? id = some rule)
    (hbody : g.StartsWith t (rule.body ++ [.terminal u])) (hbehind : g.StartsWith u behind) :
    g.StartsWith t (.nonterminal rule.head :: behind) := by
  rcases startsWith_append_iff.mp (hbody.replace hbehind) with hin | ⟨hvanish, hout⟩
  · exact .inside hrule hin _
  · exact .behind (.cons hrule hvanish .nil) hout

/-! ## Derivations -/

theorem Vanishes.derives {α : List Symbol} (h : g.Vanishes α) : g.Derives α [] := by
  induction h with
  | nil => exact .refl _
  | cons known _ _ ihInside ihBehind =>
      have hbody : g.Derives [.nonterminal _] [] := (Derives.of_rule known).trans ihInside
      exact hbody.append ihBehind

theorem StartsWith.derives {α : List Symbol} (h : g.StartsWith t α) :
    ∃ rest, g.Derives α (.terminal t :: rest) := by
  induction h with
  | here rest => exact ⟨rest, .refl _⟩
  | inside known _ rest ih =>
      obtain ⟨back, hback⟩ := ih
      exact ⟨back ++ rest, ((Derives.of_rule known).trans hback).append_right rest⟩
  | behind vanishes _ ih =>
      obtain ⟨back, hback⟩ := ih
      exact ⟨back, vanishes.derives.append hback⟩

theorem Expands.vanishes {id : RuleId} {form next : List Symbol} (h : g.Expands id form next)
    (hnext : g.Vanishes next) : g.Vanishes form := by
  cases h with
  | intro known before after =>
      rw [List.append_assoc, vanishes_append_iff, vanishes_append_iff] at hnext
      obtain ⟨hbefore, hbody, hafter⟩ := hnext
      exact vanishes_append_iff.mpr ⟨hbefore, .cons known hbody hafter⟩

theorem Expands.startsWith {id : RuleId} {form next : List Symbol} (h : g.Expands id form next)
    (hnext : g.StartsWith t next) : g.StartsWith t form := by
  cases h with
  | intro known before after =>
      rw [List.append_assoc, startsWith_append_iff, startsWith_append_iff] at hnext
      rw [startsWith_append_iff]
      rcases hnext with hbefore | ⟨hbefore, hbody | ⟨hbody, hafter⟩⟩
      · exact Or.inl hbefore
      · exact Or.inr ⟨hbefore, .inside known hbody after⟩
      · exact Or.inr ⟨hbefore, .behind (.cons known hbody .nil) hafter⟩

/-- Symbols vanish exactly if they derive the empty form. -/
theorem vanishes_iff_derives {α : List Symbol} : g.Vanishes α ↔ g.Derives α [] := by
  constructor
  · exact Vanishes.derives
  · intro h
    generalize hlast : ([] : List Symbol) = last at h
    induction h with
    | refl =>
        subst hlast
        exact .nil
    | step first _ ih => exact first.vanishes (ih hlast)

/-- Symbols start with a terminal exactly if they derive a form that does. -/
theorem startsWith_iff_derives {α : List Symbol} :
    g.StartsWith t α ↔ ∃ rest, g.Derives α (.terminal t :: rest) := by
  constructor
  · exact StartsWith.derives
  · rintro ⟨rest, h⟩
    generalize hlast : Symbol.terminal t :: rest = last at h
    induction h with
    | refl =>
        subst hlast
        exact .here rest
    | step first _ ih => exact first.startsWith (ih hlast)

/-! ## Declared symbols -/

/-- Whether the rules mention declared symbols only. -/
structure IsClosed (g : Grammar) : Prop where
  endOfInput_declared : endOfInput ∈ g.terminals.keys
  start_declared : g.start ∈ g.nonterminals.keys
  head_declared : ∀ {id rule}, g.rules.get? id = some rule → rule.head ∈ g.nonterminals.keys
  body_declared : ∀ {id rule}, g.rules.get? id = some rule →
    ∀ symbol ∈ rule.body, g.Declares symbol

theorem IsPlain.isClosed (hg : g.IsPlain) : g.IsClosed where
  endOfInput_declared := OrderedMap.mem_keys_of_get? hg.endOfInput_named
  start_declared := hg.start_declared
  head_declared := fun hrule => hg.heads_declared _ (OrderedMap.mem_values_of_get? hrule)
  body_declared := fun hrule => hg.bodies_declared _ (OrderedMap.mem_values_of_get? hrule)

theorem IsAugmentation.isClosed {a : Grammar} (h : g.IsAugmentation a) : a.IsClosed where
  endOfInput_declared := h.endOfInput_declared
  start_declared := by
    rw [h.start_eq]
    exact (h.mem_nonterminals_iff _).mpr (Or.inl rfl)
  head_declared := h.declares_head
  body_declared := h.declares_body

/-- Declared symbols start with declared terminals only. -/
theorem StartsWith.declared (hg : g.IsClosed) {α : List Symbol} (h : g.StartsWith t α)
    (hα : ∀ symbol ∈ α, g.Declares symbol) : t ∈ g.terminals.keys := by
  induction h with
  | here rest => exact hα (.terminal t) (by simp)
  | inside known _ _ ih => exact ih (hg.body_declared known)
  | behind _ _ ih => exact ih fun symbol hs => hα symbol (List.mem_cons_of_mem _ hs)

end Grammar

/-! ## Forests -/

namespace ParseTree

variable {g : Grammar}

theorem IsTreeOf.vanishes_or_startsWith {tree : ParseTree} (h : IsTreeOf g tree) :
    (tree.leaves = [] → g.Vanishes [tree.symbol]) ∧
      ∀ t rest, tree.leaves = t :: rest → g.StartsWith t [tree.symbol] := by
  induction h with
  | leaf t =>
      rw [leaves_leaf]
      refine ⟨by simp, ?_⟩
      rintro u rest hu
      obtain ⟨rfl, -⟩ := List.cons.inj hu
      exact .here _
  | @node id rule children known fits _ ih =>
      have hforest : ∀ trees : List ParseTree, (∀ tree ∈ trees, tree ∈ children) →
          (leavesOfAll trees = [] → g.Vanishes (trees.map symbol)) ∧
            ∀ t rest, leavesOfAll trees = t :: rest → g.StartsWith t (trees.map symbol) := by
        intro trees htrees
        induction trees with
        | nil => exact ⟨fun _ => .nil, by simp⟩
        | cons tree trees ihTrees =>
            obtain ⟨hvanish, hstart⟩ := ihTrees fun s hs => htrees s (List.mem_cons_of_mem _ hs)
            obtain ⟨hvanish', hstart'⟩ := ih tree (htrees tree (by simp))
            rw [leavesOfAll_cons, List.map_cons]
            constructor
            · intro hnil
              obtain ⟨hfront, hback⟩ := List.append_eq_nil_iff.mp hnil
              exact Grammar.vanishes_cons_iff.mpr ⟨hvanish' hfront, hvanish hback⟩
            · intro t rest hcons
              rcases List.append_eq_cons_iff.mp hcons with ⟨hfront, hback⟩ | ⟨back, hfront, -⟩
              · exact .behind (hvanish' hfront) (hstart t rest hback)
              · exact Grammar.startsWith_append_iff.mpr (Or.inl (hstart' t back hfront))
      obtain ⟨hvanish, hstart⟩ := hforest children fun _ h => h
      rw [fits] at hvanish hstart
      rw [leaves_node]
      exact ⟨fun hnil => .cons known (hvanish hnil) .nil,
        fun t rest hcons => .inside known (hstart t rest hcons) []⟩

/-- The symbols of a forest, in front of the terminal that comes next, start
with the first terminal of the leaves and what comes next. -/
theorem startsWith_firstTerminal {trees : List ParseTree}
    (h : ∀ tree ∈ trees, IsTreeOf g tree) (rest : List TerminalId) :
    g.StartsWith (Grammar.firstTerminal (leavesOfAll trees ++ rest))
      (trees.map symbol ++ [.terminal (Grammar.firstTerminal rest)]) := by
  induction trees with
  | nil => exact .here _
  | cons tree trees ih =>
      have hrest := ih fun t ht => h t (List.mem_cons_of_mem _ ht)
      obtain ⟨hvanish, hstart⟩ := (h tree (by simp)).vanishes_or_startsWith
      rw [leavesOfAll_cons, List.map_cons, List.append_assoc, List.cons_append]
      cases hleaves : tree.leaves with
      | nil => exact .behind (hvanish hleaves) hrest
      | cons t leaves =>
          exact Grammar.startsWith_cons_iff.mpr (Or.inl (hstart t leaves hleaves))

/-- A tree in front of symbols starts with the first terminal of its leaves and of what
the symbols start with. -/
theorem IsTreeOf.startsWith {tree : ParseTree} (h : IsTreeOf g tree) {rest : List TerminalId}
    {behind : List Symbol} (hbehind : g.StartsWith (Grammar.firstTerminal rest) behind) :
    g.StartsWith (Grammar.firstTerminal (tree.leaves ++ rest)) (tree.symbol :: behind) := by
  have htrees : ∀ t ∈ [tree], IsTreeOf g t := fun t ht => List.mem_singleton.mp ht ▸ h
  have hfront := (startsWith_firstTerminal htrees rest).replace hbehind
  simpa using hfront

end ParseTree

end GrammarAnalysis

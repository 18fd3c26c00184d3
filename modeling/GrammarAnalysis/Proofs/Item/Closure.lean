import GrammarAnalysis.Proofs.Item.Rounds

/-!
# Closures are exact

The closure of a set of items holds the items that unfold from the set, with the
lookaheads that unfold along with them, and nothing else.  A transition moves
the markers of the items that expect its symbol.

* `Grammar.mem_cores_closure_iff` and `Grammar.looks_closure_iff` are about closures.
* `Grammar.mem_cores_goto_iff` and `Grammar.looks_goto_iff` are about transitions.
-/

namespace GrammarAnalysis

namespace Grammar

/-! ## Unfolding -/

/-- The items that unfold from some items: an item that expects a nonterminal
unfolds to the initial items of its rules. -/
inductive Unfolds (g : Grammar) (seed : Item → Prop) : Item → Prop
  | seed {item : Item} (h : seed item) : Unfolds g seed item
  | spawn {item j : Item} {n : NonterminalId} (parent : Unfolds g seed item)
      (expects : g.next? item = some (.nonterminal n)) (initial : j ∈ g.initialItems n) :
      Unfolds g seed j

/-- The lookaheads that unfold from some items with lookaheads: what can come
after the nonterminal is a lookahead of the initial items. -/
inductive UnfoldsWith (g : Grammar) (seed : Item → TerminalId → Prop) :
    Item → TerminalId → Prop
  | seed {item : Item} {t : TerminalId} (h : seed item t) : UnfoldsWith g seed item t
  | spawn {item j : Item} {n : NonterminalId} {l t : TerminalId}
      (parent : UnfoldsWith g seed item l) (expects : g.next? item = some (.nonterminal n))
      (initial : j ∈ g.initialItems n)
      (starts : g.StartsWith t (g.afterNext item ++ [.terminal l])) : UnfoldsWith g seed j t

end Grammar

/-! ## Sets of items of a grammar -/

/-- Whether the set consists of items of the grammar with declared lookaheads. -/
structure ItemSet.Fits (g : Grammar) (items : ItemSet) : Prop where
  hasItem : ∀ item ∈ items.cores, g.HasItem item
  declared : ∀ item t, items.Looks item t → t ∈ g.terminals.keys

namespace Grammar

variable {g : Grammar}

/-- The terminals with which a preview can start are declared and found. -/
theorem startsWith_preview (hg : g.IsClosed) {items : ItemSet} (h : items.Fits g)
    {item : Item} {l t : TerminalId} (hl : items.Looks item l) :
    t ∈ ((FirstSets.ofGrammar g).ofSentence (g.afterNext item ++ [.terminal l])).terminals ↔
      g.StartsWith t (g.afterNext item ++ [.terminal l]) :=
  FirstSets.mem_ofSentence_iff hg (hg.declares_preview item (h.declared item l hl))

theorem fits_closureStep (hg : g.IsClosed) {items : ItemSet} (h : items.Fits g) :
    (g.closureStep (.ofGrammar g) items).Fits g := by
  refine ⟨?_, ?_⟩
  · intro item hitem
    rcases closureStep_cases.1 hitem with hitem | ⟨-, -, n, -, hitem⟩
    · exact h.hasItem item hitem
    · exact hasItem_of_mem_initialItems hitem
  · intro item t hlooks
    rcases closureStep_cases.2 t hlooks with hlooks | ⟨parent, l, -, hl, -, -, ht⟩
    · exact h.declared item t hlooks
    · exact ((startsWith_preview hg h hl).mp ht).declared hg
        (hg.declares_preview parent (h.declared parent l hl))

theorem fits_closure (hg : g.IsClosed) {items : ItemSet} (h : items.Fits g) :
    (g.closure (.ofGrammar g) items).Fits g :=
  stabilize_induction (fun _ h => fits_closureStep hg h) _ h

/-- A closure has the items that its items unfold to, with their lookaheads. -/
theorem spawn_closure (hg : g.IsClosed) {items : ItemSet} (h : items.Fits g) {item j : Item}
    {n : NonterminalId} (hitem : item ∈ (g.closure (.ofGrammar g) items).cores)
    (hnext : g.next? item = some (.nonterminal n)) (hj : j ∈ g.initialItems n) :
    j ∈ (g.closure (.ofGrammar g) items).cores ∧
      ∀ l t, (g.closure (.ofGrammar g) items).Looks item l →
        g.StartsWith t (g.afterNext item ++ [.terminal l]) →
        (g.closure (.ofGrammar g) items).Looks j t := by
  have hfixed := closureStep_closure hg items
  constructor
  · rw [← hfixed]
    exact core_closureStep hitem hnext hj
  · intro l t hl hstart
    rw [← hfixed]
    apply looks_closureStep hl hnext hj
    exact (startsWith_preview hg (fits_closure hg h) hl).mpr hstart

/-- The items of a closure are those that unfold. -/
theorem mem_cores_closure_iff (hg : g.IsClosed) {items : ItemSet} (h : items.Fits g)
    {item : Item} :
    item ∈ (g.closure (.ofGrammar g) items).cores ↔ g.Unfolds (· ∈ items.cores) item := by
  constructor
  · refine stabilize_induction (P := fun found : ItemSet =>
      ∀ item ∈ found.cores, g.Unfolds (· ∈ items.cores) item) ?_ _ ?_ item
    · intro found hfound item hitem
      rcases closureStep_cases.1 hitem with hitem | ⟨parent, hparent, n, hn, hitem⟩
      · exact hfound item hitem
      · exact .spawn (hfound parent hparent) hn hitem
    · intro item hitem
      exact .seed hitem
  · intro hitem
    induction hitem with
    | seed hitem =>
        refine stabilize_induction (P := fun found : ItemSet => _ ∈ found.cores) ?_ _ hitem
        intro found hfound
        exact ItemSet.mem_cores_addAll.mpr (Or.inl hfound)
    | spawn _ hnext hj ih => exact (spawn_closure hg h ih hnext hj).1

/-- The lookaheads of a closure are those that unfold. -/
theorem looks_closure_iff (hg : g.IsClosed) {items : ItemSet} (h : items.Fits g)
    {item : Item} {t : TerminalId} :
    (g.closure (.ofGrammar g) items).Looks item t ↔ g.UnfoldsWith items.Looks item t := by
  constructor
  · refine (stabilize_induction (P := fun found : ItemSet => found.Fits g ∧
      ∀ item t, found.Looks item t → g.UnfoldsWith items.Looks item t) ?_ _ ?_).2 item t
    · rintro found ⟨hfits, hfound⟩
      refine ⟨fits_closureStep hg hfits, fun item t hlooks => ?_⟩
      rcases closureStep_cases.2 t hlooks with hlooks | ⟨parent, l, n, hl, hn, hj, ht⟩
      · exact hfound item t hlooks
      · exact .spawn (hfound parent l hl) hn hj ((startsWith_preview hg hfits hl).mp ht)
    · exact ⟨h, fun item t hlooks => .seed hlooks⟩
  · intro hlooks
    induction hlooks with
    | seed hlooks =>
        refine stabilize_induction (P := fun found : ItemSet => found.Looks _ _) ?_ _ hlooks
        intro found hfound
        exact ItemSet.looks_addAll.mpr (Or.inl hfound)
    | spawn _ hnext hj hstart ih =>
        exact (spawn_closure hg h ih.mem_cores hnext hj).2 _ _ ih hstart

/-! ## Transitions -/

theorem mem_cores_goto_iff {items : ItemSet} {s : Symbol} {item : Item} :
    item ∈ (g.goto items s).cores ↔
      ∃ i ∈ items.cores, g.next? i = some s ∧ item = i.advance := by
  rw [goto, ItemSet.mem_cores_ofList]
  simp only [List.map_map, List.mem_map, List.mem_filter, decide_eq_true_eq, Function.comp_apply,
    ItemSet.cores]
  constructor
  · rintro ⟨entry, ⟨hentry, hnext⟩, rfl⟩
    exact ⟨entry.1, ⟨entry, hentry, rfl⟩, hnext, rfl⟩
  · rintro ⟨-, ⟨entry, hentry, rfl⟩, hnext, rfl⟩
    exact ⟨entry, ⟨hentry, hnext⟩, rfl⟩

theorem looks_goto_iff {items : ItemSet} {s : Symbol} {item : Item} {t : TerminalId} :
    (g.goto items s).Looks item t ↔
      ∃ i, items.Looks i t ∧ g.next? i = some s ∧ item = i.advance := by
  rw [goto, ItemSet.looks_ofList]
  simp only [List.mem_map, List.mem_filter, decide_eq_true_eq, Prod.mk.injEq]
  constructor
  · rintro ⟨known, ⟨entry, ⟨hentry, hnext⟩, rfl, rfl⟩, ht⟩
    exact ⟨entry.1, ItemSet.looks_iff_exists_mem.mpr ⟨entry.2, hentry, ht⟩, hnext, rfl⟩
  · rintro ⟨i, hlooks, hnext, rfl⟩
    obtain ⟨known, hentry, ht⟩ := ItemSet.looks_iff_exists_mem.mp hlooks
    exact ⟨known, ⟨(i, known), ⟨hentry, hnext⟩, rfl, rfl⟩, ht⟩

theorem fits_goto {items : ItemSet} (h : items.Fits g) (s : Symbol) :
    (g.goto items s).Fits g := by
  refine ⟨?_, ?_⟩
  · intro item hitem
    obtain ⟨i, -, hnext, rfl⟩ := mem_cores_goto_iff.mp hitem
    exact hasItem_advance hnext
  · intro item t hlooks
    obtain ⟨i, hi, -, -⟩ := looks_goto_iff.mp hlooks
    exact h.declared i t hi

/-- The transitions of a set are those over the symbols its items expect. -/
theorem mem_transitions_iff {items target : ItemSet} {s : Symbol} :
    (s, target) ∈ g.transitions items ↔
      (∃ item ∈ items.cores, g.next? item = some s) ∧ target = g.goto items s := by
  rw [transitions, List.mem_map]
  simp only [expected, mem_distinct, List.mem_filterMap, Prod.mk.injEq]
  constructor
  · rintro ⟨s, hs, rfl, rfl⟩
    exact ⟨hs, rfl⟩
  · rintro ⟨hs, rfl⟩
    exact ⟨s, hs, rfl, rfl⟩

end Grammar

end GrammarAnalysis

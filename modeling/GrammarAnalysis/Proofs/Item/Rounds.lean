import Mathlib.Data.Finset.Prod
import GrammarAnalysis.Item.Closure
import GrammarAnalysis.Proofs.Item.Sets
import GrammarAnalysis.Proofs.Lookahead.First

/-!
# The rounds of a closure

A round of a closure keeps what is there and adds initial items of rules, with
lookaheads from FIRST sets.  There are finitely many things of this kind, whatever set
the rounds start from: the set may have items without lookaheads, items with
undeclared lookaheads, and items that do not belong to the grammar.  So the rounds end
for every set (`Grammar.closureStep_closure`).
-/

namespace GrammarAnalysis.Grammar

variable {g : Grammar}

/-! ## Items of a grammar -/

/-- Whether the marker of the item stands in the body of a rule. -/
def HasItem (g : Grammar) (item : Item) : Prop :=
  ∃ rule, g.rules.get? item.rule = some rule ∧ item.marker ≤ rule.body.length

theorem bodyOf_eq {item : Item} {rule : Rule} (h : g.rules.get? item.rule = some rule) :
    g.bodyOf item = rule.body := by
  simp [bodyOf, h]

/-- The rule of an item that expects a symbol is known. -/
theorem exists_rule_of_next? {item : Item} {s : Symbol} (h : g.next? item = some s) :
    ∃ rule, g.rules.get? item.rule = some rule ∧ rule.body[item.marker]? = some s := by
  cases hrule : g.rules.get? item.rule with
  | none => simp [next?, bodyOf, hrule] at h
  | some rule =>
      rw [next?, bodyOf_eq hrule] at h
      exact ⟨rule, rfl, h⟩

/-- The symbols from the marker on: the expected one and those after it. -/
theorem drop_marker_of_next? {item : Item} {s : Symbol} (h : g.next? item = some s) :
    (g.bodyOf item).drop item.marker = s :: g.afterNext item := by
  obtain ⟨hlt, hget⟩ := List.getElem?_eq_some_iff.mp h
  rw [afterNext, List.drop_eq_getElem_cons hlt, hget]

theorem hasItem_advance {item : Item} {s : Symbol} (h : g.next? item = some s) :
    g.HasItem item.advance := by
  obtain ⟨rule, hrule, hnext⟩ := exists_rule_of_next? h
  exact ⟨rule, hrule, (List.getElem?_eq_some_iff.mp hnext).1⟩

theorem mem_initialItems {n : NonterminalId} {item : Item} :
    item ∈ g.initialItems n ↔
      ∃ rule, g.rules.get? item.rule = some rule ∧ rule.head = n ∧ item.marker = 0 := by
  constructor
  · intro h
    obtain ⟨⟨id, rule⟩, hentry, rfl⟩ := List.mem_map.mp h
    obtain ⟨hmem, hhead⟩ := List.mem_filter.mp hentry
    exact ⟨rule, OrderedMap.get?_eq_some_iff.mpr hmem, by simpa using hhead, rfl⟩
  · rintro ⟨rule, hrule, hhead, hmarker⟩
    refine List.mem_map.mpr ⟨(item.rule, rule), ?_, ?_⟩
    · exact List.mem_filter.mpr ⟨OrderedMap.get?_eq_some_iff.mp hrule, by simpa using hhead⟩
    · cases item
      simp_all [Item.initial]

theorem hasItem_of_mem_initialItems {n : NonterminalId} {item : Item}
    (h : item ∈ g.initialItems n) : g.HasItem item := by
  obtain ⟨rule, hrule, -, hmarker⟩ := mem_initialItems.mp h
  exact ⟨rule, hrule, by omega⟩

theorem IsClosed.declares_bodyOf (hg : g.IsClosed) (item : Item) :
    ∀ symbol ∈ g.bodyOf item, g.Declares symbol := by
  intro symbol hs
  cases hrule : g.rules.get? item.rule with
  | none => simp [bodyOf, hrule] at hs
  | some rule =>
      rw [bodyOf_eq hrule] at hs
      exact hg.body_declared hrule symbol hs

/-- What comes after the next symbol, up to a declared lookahead, is declared. -/
theorem IsClosed.declares_preview (hg : g.IsClosed) (item : Item) {l : TerminalId}
    (hl : l ∈ g.terminals.keys) :
    ∀ symbol ∈ g.afterNext item ++ [.terminal l], g.Declares symbol := by
  intro symbol hs
  rcases List.mem_append.mp hs with hs | hs
  · exact hg.declares_bodyOf item symbol (List.mem_of_mem_drop hs)
  · rw [List.mem_singleton.mp hs]
    exact hl

/-! ## One round -/

theorem mem_spawnedLookaheads {first : FirstSets} {item : Item} {known : NatSet}
    {t : TerminalId} :
    t ∈ g.spawnedLookaheads first item known ↔
      ∃ l ∈ known, t ∈ (first.ofSentence (g.afterNext item ++ [.terminal l])).terminals := by
  have hfold : ∀ (previews : List (List Symbol)) (found : NatSet),
      t ∈ previews.foldl (fun found preview => found ∪ (first.ofSentence preview).terminals)
        found ↔ t ∈ found ∨ ∃ preview ∈ previews, t ∈ (first.ofSentence preview).terminals := by
    intro previews
    induction previews with
    | nil => simp
    | cons preview rest ih =>
        intro found
        rw [List.foldl_cons, ih, NatSet.mem_union]
        simp [or_assoc]
  rw [spawnedLookaheads, hfold]
  simp [previews]

theorem mem_spawned {first : FirstSets} {entry : Item × NatSet} {j : Item} {added : NatSet} :
    (j, added) ∈ g.spawned first entry ↔
      ∃ n, g.next? entry.1 = some (.nonterminal n) ∧ j ∈ g.initialItems n ∧
        added = g.spawnedLookaheads first entry.1 entry.2 := by
  rw [spawned]
  split
  · next n hn =>
    rw [hn]
    simp only [List.mem_map, Prod.mk.injEq, Option.some.injEq, Symbol.nonterminal.injEq]
    constructor
    · rintro ⟨i, hi, rfl, rfl⟩
      exact ⟨n, rfl, hi, rfl⟩
    · rintro ⟨m, rfl, hj, rfl⟩
      exact ⟨j, hj, rfl, rfl⟩
  · next hnext =>
    simp only [List.not_mem_nil, false_iff]
    rintro ⟨n, hn, -⟩
    exact hnext n hn

/-- A round only adds what unfolds from the set. -/
theorem closureStep_cases {first : FirstSets} {items : ItemSet} {item : Item} :
    (item ∈ (g.closureStep first items).cores → item ∈ items.cores ∨
      ∃ parent ∈ items.cores, ∃ n, g.next? parent = some (.nonterminal n) ∧
        item ∈ g.initialItems n) ∧
    ∀ t, (g.closureStep first items).Looks item t → items.Looks item t ∨
      ∃ parent l n, items.Looks parent l ∧ g.next? parent = some (.nonterminal n) ∧
        item ∈ g.initialItems n ∧
        t ∈ (first.ofSentence (g.afterNext parent ++ [.terminal l])).terminals := by
  constructor
  · intro h
    rw [closureStep, ItemSet.mem_cores_addAll] at h
    rcases h with h | h
    · exact Or.inl h
    · obtain ⟨⟨j, added⟩, hentry, rfl⟩ := List.mem_map.mp h
      obtain ⟨⟨parent, known⟩, hparent, hspawned⟩ := List.mem_flatMap.mp hentry
      obtain ⟨n, hn, hj, -⟩ := mem_spawned.mp hspawned
      exact Or.inr ⟨parent, List.mem_map_of_mem hparent, n, hn, hj⟩
  · intro t h
    rw [closureStep, ItemSet.looks_addAll] at h
    rcases h with h | ⟨added, hentry, ht⟩
    · exact Or.inl h
    · obtain ⟨⟨parent, known⟩, hparent, hspawned⟩ := List.mem_flatMap.mp hentry
      obtain ⟨n, hn, hj, rfl⟩ := mem_spawned.mp hspawned
      obtain ⟨l, hl, hstart⟩ := mem_spawnedLookaheads.mp ht
      have hlooks := ItemSet.looks_iff_exists_mem.mpr ⟨known, hparent, hl⟩
      exact Or.inr ⟨parent, l, n, hlooks, hn, hj, hstart⟩

/-- A round keeps what is there. -/
theorem le_closureStep (first : FirstSets) (items : ItemSet) :
    items ≤ g.closureStep first items :=
  items.le_addAll _

section

variable {first : FirstSets} {items : ItemSet} {item j : Item} {n : NonterminalId}

/-- What an entry of a set calls for is there after a round. -/
theorem mem_flatMap_spawned (first : FirstSets) {known : NatSet}
    (hentry : (item, known) ∈ items.entries) (hnext : g.next? item = some (.nonterminal n))
    (hj : j ∈ g.initialItems n) :
    (j, g.spawnedLookaheads first item known) ∈ items.entries.flatMap (g.spawned first) :=
  List.mem_flatMap.mpr ⟨(item, known), hentry, mem_spawned.mpr ⟨n, hnext, hj, rfl⟩⟩

theorem core_closureStep (hitem : item ∈ items.cores)
    (hnext : g.next? item = some (.nonterminal n)) (hj : j ∈ g.initialItems n) :
    j ∈ (g.closureStep first items).cores := by
  obtain ⟨⟨i, known⟩, hentry, rfl⟩ := List.mem_map.mp hitem
  have hspawned := mem_flatMap_spawned first hentry hnext hj
  exact ItemSet.mem_cores_addAll.mpr (Or.inr (List.mem_map_of_mem hspawned))

theorem looks_closureStep {l t : TerminalId} (hlooks : items.Looks item l)
    (hnext : g.next? item = some (.nonterminal n)) (hj : j ∈ g.initialItems n)
    (ht : t ∈ (first.ofSentence (g.afterNext item ++ [.terminal l])).terminals) :
    (g.closureStep first items).Looks j t := by
  obtain ⟨known, hentry, hl⟩ := ItemSet.looks_iff_exists_mem.mp hlooks
  have hspawned := mem_flatMap_spawned first hentry hnext hj
  apply ItemSet.looks_addAll.mpr
  exact Or.inr ⟨_, hspawned, mem_spawnedLookaheads.mpr ⟨l, hl, ht⟩⟩

end

/-! ## The last round -/

/-- What rounds can add: the initial items of the rules, with declared terminals. -/
def addable (g : Grammar) : Finset (Item × Option TerminalId) :=
  (g.rules.keys.map Item.initial).toFinset ×ˢ (none :: g.terminals.keys.map some).toFinset

theorem card_addable_le (g : Grammar) :
    g.addable.card ≤ g.rules.size * (g.terminals.size + 1) := by
  have hitems : (g.rules.keys.map Item.initial).toFinset.card ≤ g.rules.size := by
    refine (List.toFinset_card_le _).trans ?_
    rw [List.length_map, OrderedMap.length_keys]
  have hoptions : (none :: g.terminals.keys.map some).toFinset.card ≤ g.terminals.size + 1 := by
    refine (List.toFinset_card_le _).trans ?_
    rw [List.length_cons, List.length_map, OrderedMap.length_keys]
  rw [addable, Finset.card_product]
  exact Nat.mul_le_mul hitems hoptions

/-- What a round adds can be added. -/
theorem mem_addable_of_closureStep (hg : g.IsClosed) {items : ItemSet}
    {entry : Item × Option TerminalId}
    (h : SaysOf (g.closureStep (.ofGrammar g) items) entry) :
    SaysOf items entry ∨ entry ∈ g.addable := by
  have hinitial : ∀ {item n}, item ∈ g.initialItems n →
      item ∈ (g.rules.keys.map Item.initial).toFinset := by
    intro item n hitem
    obtain ⟨rule, hrule, -, hmarker⟩ := mem_initialItems.mp hitem
    rw [List.mem_toFinset, List.mem_map]
    refine ⟨item.rule, OrderedMap.mem_keys_of_get? hrule, ?_⟩
    rw [Item.initial, ← hmarker]
  obtain ⟨item, option⟩ := entry
  cases option with
  | none =>
      rcases closureStep_cases.1 h with hold | ⟨parent, -, n, -, hitem⟩
      · exact Or.inl hold
      · right
        simp [addable, hinitial hitem]
  | some t =>
      rcases closureStep_cases.2 t h with hold | ⟨parent, l, n, -, -, hitem, ht⟩
      · exact Or.inl hold
      · right
        have hdeclared := (FirstSets.sound_ofGrammar hg).declared_of_mem hg ht
        simp [addable, hinitial hitem, hdeclared]

open Classical in
/-- The number of the things that can be added and are there. -/
noncomputable def addedCount (g : Grammar) (items : ItemSet) : Nat :=
  (g.addable.filter (SaysOf items)).card

theorem addedCount_le (g : Grammar) (items : ItemSet) :
    g.addedCount items ≤ g.rules.size * (g.terminals.size + 1) := by
  classical
  exact (Finset.card_filter_le _ _).trans g.card_addable_le

/-- A round changes nothing, or it adds something that can be added. -/
theorem closureStep_eq_self_or_lt (hg : g.IsClosed) (items : ItemSet) :
    g.closureStep (.ofGrammar g) items = items ∨
      g.addedCount items < g.addedCount (g.closureStep (.ofGrammar g) items) := by
  classical
  have hkeeps := le_closureStep (g := g) (.ofGrammar g) items
  by_cases hidle : g.closureStep (.ofGrammar g) items ≤ items
  · exact Or.inl (le_antisymm hidle hkeeps)
  · right
    rw [ItemSet.le_iff_saysOf] at hidle hkeeps
    obtain ⟨entry, hentry⟩ := not_forall.mp hidle
    obtain ⟨hnew, hold⟩ := Classical.not_imp.mp hentry
    have haddable := (mem_addable_of_closureStep hg hnew).resolve_left hold
    apply Finset.card_lt_card
    refine (Finset.ssubset_iff_of_subset ?_).mpr ⟨entry, ?_, ?_⟩
    · exact Finset.monotone_filter_right _ fun entry _ hsaid => hkeeps entry hsaid
    · exact Finset.mem_filter.mpr ⟨haddable, hnew⟩
    · exact fun hmem => hold (Finset.mem_filter.mp hmem).2

theorem addedCount_lt_closureBound (g : Grammar) (items : ItemSet) :
    g.rules.size * (g.terminals.size + 1) < g.addedCount items + g.closureBound := by
  rw [closureBound]
  omega

/-- The last round of a closure adds nothing. -/
theorem closureStep_closure (hg : g.IsClosed) (items : ItemSet) :
    g.closureStep (.ofGrammar g) (g.closure (.ofGrammar g) items) =
      g.closure (.ofGrammar g) items :=
  step_stabilize_eq (fun _ => True) g.addedCount (fun _ _ => trivial)
    (fun items _ => closureStep_eq_self_or_lt hg items) (fun items _ => g.addedCount_le items)
    trivial (g.addedCount_lt_closureBound items)

end GrammarAnalysis.Grammar

import GrammarAnalysis.Proofs.Automaton.Subsets
import GrammarAnalysis.Proofs.Lookahead.Follow
import GrammarAnalysis.Proofs.ShiftReduce.Canonical

/-!
# The LR(0) states make an automaton of item sets

The states of the item automaton are numbered items.  Epsilon edges unfold an
item and the other edges move it, so that the subsets found by the construction
are closed sets of items.  Complete items are reduced on the terminals that
follow their heads.
-/

namespace GrammarAnalysis

namespace ItemAutomaton

variable {g a : Grammar}

/-! ## Numbered items -/

/-- The items in order of discovery. -/
def keys (g : Grammar) : List Item := (items g).map Prod.fst

theorem atMost_hasItem (g : Grammar) : AtMost (g.itemCount + 2) g.HasItem := by
  apply atMost_of_mem fun item hitem => Grammar.mem_allItems.mpr hitem
  rw [Grammar.length_allItems]
  exact Nat.le_add_right _ _

/-- The targets of the edges of an item. -/
theorem leads_iff {item j : Item} :
    Leads (expand g) Edges.targets item j ↔
      (∃ s, g.next? item = some s ∧ j = item.advance) ∨
        ∃ n, g.next? item = some (.nonterminal n) ∧ j ∈ g.initialItems n := by
  rw [Leads, expand]
  cases hnext : g.next? item with
  | none => simp [Edges.targets]
  | some s => cases s <;> simp [Edges.targets]

theorem hasItem_of_leads {item j : Item} (h : Leads (expand g) Edges.targets item j) :
    g.HasItem j := by
  rcases leads_iff.mp h with ⟨s, hnext, rfl⟩ | ⟨n, -, hj⟩
  · exact Grammar.hasItem_advance hnext
  · exact Grammar.hasItem_of_mem_initialItems hj

theorem mem_keys_iff (h : g.IsAugmentation a) {item : Item} :
    item ∈ keys a ↔ Relation.ReflTransGen (Leads (expand a) Edges.targets)
      (Item.initial acceptRule) item := by
  have hroots : ∀ r ∈ [Item.initial acceptRule], a.HasItem r := by
    intro r hr
    rw [List.mem_singleton.mp hr]
    exact ⟨_, h.get?_accept, Nat.zero_le _⟩
  rw [keys, items, mem_explore_iff hroots (fun _ _ _ hj => hasItem_of_leads hj)
    (atMost_hasItem a)]
  simp

theorem keys_zero (g : Grammar) : (keys g)[0]? = some (Item.initial acceptRule) :=
  head_explore (Item.initial acceptRule)

theorem keys_idxOf (h : g.IsAugmentation a) {item j : Item} (hitem : item ∈ keys a)
    (hleads : Leads (expand a) Edges.targets item j) :
    (keys a)[(keys a).idxOf j]? = some j :=
  List.getElem?_idxOf ((mem_keys_iff h).mpr (((mem_keys_iff h).mp hitem).tail hleads))

/-- The state of an item. -/
def nodeOf (g : Grammar) (item : Item) : Node Symbol Item where
  edges := OrderedMap.ofList
    ((expand g item).onward.toList.map fun entry => (entry.1, [(keys g).idxOf entry.2]))
  epsilons := (expand g item).initials.map (keys g).idxOf
  isFinal := true
  tag := item

theorem getElem?_nodes {n : NodeId} :
    g.itemAutomaton.nodes[n]? = (keys g)[n]?.map (nodeOf g) := by
  have hnodes : g.itemAutomaton.nodes = ((keys g).map (nodeOf g)).toArray := by
    rw [Grammar.itemAutomaton, keys, List.map_map]
    refine congrArg List.toArray (List.map_congr_left fun entry hentry => ?_)
    obtain ⟨item, edges⟩ := entry
    have hedges : edges = expand g item := expansion_of_mem_explore hentry
    subst hedges
    rfl
  rw [hnodes, List.getElem?_toArray, List.getElem?_map]

theorem get?_edges {item : Item} {s : Symbol} {targets : List NodeId} :
    (nodeOf g item).edges.get? s = some targets ↔
      g.next? item = some s ∧ targets = [(keys g).idxOf item.advance] := by
  have hnodup : (((expand g item).onward.toList.map
      fun entry => (entry.1, [(keys g).idxOf entry.2])).map Prod.fst).Nodup := by
    cases (expand g item).onward <;> simp
  rw [nodeOf, OrderedMap.get?_ofList hnodup, expand]
  cases hnext : g.next? item with
  | none => simp
  | some s' => cases s' <;> simp [eq_comm, and_comm]

theorem mem_targets_iff {n m : NodeId} {s : Symbol} :
    m ∈ g.itemAutomaton.targets n s ↔ ∃ item, (keys g)[n]? = some item ∧
      g.next? item = some s ∧ m = (keys g).idxOf item.advance := by
  rw [StateGraph.targets, getElem?_nodes]
  cases hkey : (keys g)[n]? with
  | none => simp
  | some item =>
      simp only [Option.map_some, Option.bind_some, Option.some.injEq, exists_eq_left']
      cases hget : (nodeOf g item).edges.get? s with
      | none =>
          have hnone : ¬ g.next? item = some s := by
            intro hnext
            rw [get?_edges.mpr ⟨hnext, rfl⟩] at hget
            contradiction
          simp [hnone]
      | some targets =>
          obtain ⟨hnext, rfl⟩ := get?_edges.mp hget
          simp [hnext]

theorem mem_symbols_iff {n : NodeId} {s : Symbol} :
    s ∈ g.itemAutomaton.symbols n ↔
      ∃ item, (keys g)[n]? = some item ∧ g.next? item = some s := by
  rw [StateGraph.symbols, getElem?_nodes]
  cases hkey : (keys g)[n]? with
  | none => simp
  | some item =>
      simp only [Option.map_some, Option.getD_some, Option.some.injEq, exists_eq_left',
        OrderedMap.mem_keys_iff, get?_edges]
      exact ⟨fun ⟨_, hnext, _⟩ => hnext, fun hnext => ⟨_, hnext, rfl⟩⟩

theorem mem_epsilons_iff {n m : NodeId} :
    m ∈ g.itemAutomaton.epsilons n ↔ ∃ item, (keys g)[n]? = some item ∧
      ∃ k, g.next? item = some (.nonterminal k) ∧ ∃ j ∈ g.initialItems k,
        m = (keys g).idxOf j := by
  rw [StateGraph.epsilons, getElem?_nodes]
  cases hkey : (keys g)[n]? with
  | none => simp
  | some item =>
      simp only [Option.map_some, Option.getD_some, Option.some.injEq, exists_eq_left', nodeOf,
        expand]
      cases hnext : g.next? item with
      | none => simp
      | some s => cases s <;> simp [eq_comm]

theorem isBounded (h : g.IsAugmentation a) : a.itemAutomaton.IsBounded := by
  have hsize : ∀ n item, (keys a)[n]? = some item → n < a.itemAutomaton.size := by
    intro n item hkey
    have hnode : a.itemAutomaton.nodes[n]? = some (nodeOf a item) := by
      rw [getElem?_nodes, hkey, Option.map_some]
    exact (Array.getElem?_eq_some_iff.mp hnode).1
  refine ⟨?_, ?_, ?_⟩
  · exact hsize 0 _ (keys_zero a)
  · intro n m hm
    obtain ⟨item, hkey, k, hnext, j, hj, rfl⟩ := mem_epsilons_iff.mp hm
    exact hsize _ j (keys_idxOf h (List.mem_of_getElem? hkey)
      (leads_iff.mpr (Or.inr ⟨k, hnext, hj⟩)))
  · intro n s m hm
    obtain ⟨item, hkey, hnext, rfl⟩ := mem_targets_iff.mp hm
    exact hsize _ item.advance (keys_idxOf h (List.mem_of_getElem? hkey)
      (leads_iff.mpr (Or.inl ⟨s, hnext, rfl⟩)))

/-! ## Subsets of items -/

/-- Whether the item is numbered in the subset. -/
def InSubset (g : Grammar) (states : NatSet) (item : Item) : Prop :=
  ∃ n ∈ states, (keys g)[n]? = some item

/-- The epsilon closure of some items consists of the items that unfold from them. -/
theorem inSubset_epsilonClosure_iff (h : g.IsAugmentation a) {seeds : NatSet}
    (hseeds : a.itemAutomaton.Has seeds) {item : Item} :
    InSubset a (a.itemAutomaton.epsilonClosure seeds.toList) item ↔
      a.Unfolds (InSubset a seeds) item := by
  have hclosure : ∀ n, n ∈ a.itemAutomaton.epsilonClosure seeds.toList ↔
      ∃ r ∈ seeds.toList, Relation.ReflTransGen
        (fun k m => m ∈ a.itemAutomaton.epsilons k) r n := fun n =>
    StateGraph.mem_epsilonClosure_iff (isBounded h) fun n hn => hseeds n hn
  constructor
  · rintro ⟨n, hn, hkey⟩
    obtain ⟨r, hr, hreach⟩ := (hclosure n).mp hn
    induction hreach generalizing item with
    | refl => exact .seed ⟨r, hr, hkey⟩
    | @tail k m hfront hedge ih =>
        obtain ⟨parent, hparent, c, hnext, j, hj, rfl⟩ := mem_epsilons_iff.mp hedge
        have hmem := (hclosure k).mpr ⟨r, hr, hfront⟩
        rw [keys_idxOf h (List.mem_of_getElem? hparent) (leads_iff.mpr (Or.inr ⟨c, hnext, hj⟩)),
          Option.some.injEq] at hkey
        rw [← hkey]
        exact .spawn (ih hmem hparent) hnext hj
  · intro hunfolds
    induction hunfolds with
    | seed hitem =>
        obtain ⟨n, hn, hkey⟩ := hitem
        exact ⟨n, (hclosure n).mpr ⟨n, hn, .refl⟩, hkey⟩
    | @spawn parent j c _ hnext hj ih =>
        obtain ⟨n, hn, hkey⟩ := ih
        obtain ⟨r, hr, hreach⟩ := (hclosure n).mp hn
        have hedge : (keys a).idxOf j ∈ a.itemAutomaton.epsilons n :=
          mem_epsilons_iff.mpr ⟨parent, hkey, c, hnext, j, hj, rfl⟩
        have hspawned := keys_idxOf h (List.mem_of_getElem? hkey)
          (leads_iff.mpr (Or.inr ⟨c, hnext, hj⟩))
        exact ⟨_, (hclosure _).mpr ⟨r, hr, hreach.tail hedge⟩, hspawned⟩

theorem inSubset_startStates_iff (h : g.IsAugmentation a) {item : Item} :
    InSubset a a.itemAutomaton.startStates item ↔
      a.Unfolds (· = Item.initial acceptRule) item := by
  have hseeds : a.itemAutomaton.Has (NatSet.singleton 0) := by
    intro n hn
    rw [NatSet.mem_singleton.mp hn]
    exact (isBounded h).root_lt
  have hseed : InSubset a (NatSet.singleton 0) = (· = Item.initial acceptRule) := by
    funext i
    simp [InSubset, keys_zero, eq_comm]
  rw [← hseed]
  exact inSubset_epsilonClosure_iff h hseeds

theorem inSubset_moveBy_iff (h : g.IsAugmentation a) {states : NatSet} {s : Symbol}
    {item : Item} :
    InSubset a (a.itemAutomaton.moveBy states s) item ↔
      ∃ i, InSubset a states i ∧ a.next? i = some s ∧ item = i.advance := by
  have hkeys : ∀ n i, (keys a)[n]? = some i → a.next? i = some s →
      (keys a)[(keys a).idxOf i.advance]? = some i.advance := fun n i hkey hnext =>
    keys_idxOf h (List.mem_of_getElem? hkey) (leads_iff.mpr (Or.inl ⟨s, hnext, rfl⟩))
  constructor
  · rintro ⟨m, hm, hitem⟩
    obtain ⟨n, hn, htarget⟩ := StateGraph.mem_moveBy_iff.mp hm
    obtain ⟨i, hkey, hnext, rfl⟩ := mem_targets_iff.mp htarget
    rw [hkeys n i hkey hnext, Option.some.injEq] at hitem
    exact ⟨i, ⟨n, hn, hkey⟩, hnext, hitem.symm⟩
  · rintro ⟨i, ⟨n, hn, hkey⟩, hnext, rfl⟩
    exact ⟨_, StateGraph.mem_moveBy_iff.mpr ⟨n, hn, mem_targets_iff.mpr ⟨i, hkey, hnext, rfl⟩⟩,
      hkeys n i hkey hnext⟩

theorem inSubset_advance_iff (h : g.IsAugmentation a) {states : NatSet} {s : Symbol}
    {item : Item} :
    InSubset a (a.itemAutomaton.advance states s) item ↔
      a.Unfolds (fun j => ∃ i, InSubset a states i ∧ a.next? i = some s ∧ j = i.advance)
        item := by
  have hseed : InSubset a (a.itemAutomaton.moveBy states s) =
      fun j => ∃ i, InSubset a states i ∧ a.next? i = some s ∧ j = i.advance := by
    funext j
    exact propext (inSubset_moveBy_iff h)
  rw [StateGraph.advance,
    inSubset_epsilonClosure_iff h (StateGraph.has_moveBy (isBounded h) states s), hseed]

/-- The subset after a symbol is listed where some item of the subset expects it. -/
theorem mem_expandSubset_iff (h : g.IsAugmentation a) {states next : NatSet} {s : Symbol} :
    (s, next) ∈ a.itemAutomaton.expandSubset states ↔
      (∃ item, InSubset a states item ∧ a.next? item = some s) ∧
        next = a.itemAutomaton.advance states s := by
  rw [StateGraph.mem_expandSubset_iff]
  simp only [mem_symbols_iff]
  constructor
  · rintro ⟨⟨n, hn, item, hkey, hnext⟩, rfl, -⟩
    exact ⟨⟨item, ⟨n, hn, hkey⟩, hnext⟩, rfl⟩
  · rintro ⟨⟨item, ⟨n, hn, hkey⟩, hnext⟩, rfl⟩
    refine ⟨⟨n, hn, item, hkey, hnext⟩, rfl, ?_⟩
    obtain ⟨m, hm, -⟩ := (inSubset_advance_iff h).mpr
      (.seed ⟨item, ⟨n, hn, hkey⟩, hnext, rfl⟩)
    exact NatSet.isEmpty_eq_false_iff.mpr ⟨m, hm⟩

/-! ## LR(0) states -/

/-- The LR(0) state of a subset. -/
def stateOf (g : Grammar) (states : NatSet) : ParserState where
  items := ItemSet.ofList (states.toList.filterMap fun n =>
    (keys g)[n]?.map fun item => (item, (∅ : NatSet)))
  transitions := OrderedMap.ofList ((g.itemAutomaton.expandSubset states).map
    fun entry => (entry.1, g.itemAutomaton.subsetKeys.idxOf entry.2))

theorem lr0States_eq (g : Grammar) :
    g.lr0States = g.itemAutomaton.subsetKeys.map (stateOf g) := by
  rw [Grammar.lr0States, StateGraph.nodes_determinize, List.map_map]
  refine List.map_congr_left fun states _ => ?_
  rw [Function.comp_apply, stateOf, StateGraph.entries_subsetNode, List.filterMap_map]
  congr 1
  · congr 2
    funext n
    rw [getElem?_nodes, Option.map_map]
    rfl
  · rw [← List.filterMap_eq_map]
    rfl

theorem getElem?_lr0States {s : StateId} :
    g.lr0States[s]? = g.itemAutomaton.subsetKeys[s]?.map (stateOf g) := by
  rw [lr0States_eq, List.getElem?_map]

theorem mem_cores_stateOf {states : NatSet} {item : Item} :
    item ∈ (stateOf g states).items.cores ↔ InSubset g states item := by
  rw [stateOf, ItemSet.mem_cores_ofList]
  simp [InSubset]

theorem get?_transitions (h : g.IsAugmentation a) {states : NatSet} {s : Symbol}
    {next : StateId} :
    (stateOf a states).transitions.get? s = some next ↔
      (∃ item, InSubset a states item ∧ a.next? item = some s) ∧
        next = a.itemAutomaton.subsetKeys.idxOf (a.itemAutomaton.advance states s) := by
  have hnodup : (((a.itemAutomaton.expandSubset states).map
      fun entry => (entry.1, a.itemAutomaton.subsetKeys.idxOf entry.2)).map Prod.fst).Nodup := by
    have hkeys := StateGraph.nodup_expandSubset a.itemAutomaton states
    simpa [Function.comp_def] using hkeys
  rw [stateOf, OrderedMap.get?_ofList hnodup, List.mem_map]
  simp only [Prod.exists, mem_expandSubset_iff h, Prod.mk.injEq]
  constructor
  · rintro ⟨s, target, ⟨hs, rfl⟩, rfl, rfl⟩
    exact ⟨hs, rfl⟩
  · rintro ⟨hs, rfl⟩
    exact ⟨s, _, ⟨hs, rfl⟩, rfl, rfl⟩

theorem holdsAt_iff {s : StateId} {item : Item} :
    HoldsAt g.lr0States s item ↔
      ∃ states, g.itemAutomaton.subsetKeys[s]? = some states ∧ InSubset g states item := by
  simp [HoldsAt, getElem?_lr0States, mem_cores_stateOf]

theorem movesTo_iff (h : g.IsAugmentation a) {s next : StateId} {symbol : Symbol} :
    MovesTo a.lr0States s symbol next ↔
      ∃ states, a.itemAutomaton.subsetKeys[s]? = some states ∧
        (∃ item, InSubset a states item ∧ a.next? item = some symbol) ∧
          next = a.itemAutomaton.subsetKeys.idxOf (a.itemAutomaton.advance states symbol) := by
  simp [MovesTo, getElem?_lr0States, get?_transitions h]

/-- A transition leads to the state of the subset it moves to. -/
theorem subsetKeys_of_movesTo (h : g.IsAugmentation a) {s next : StateId} {symbol : Symbol}
    (move : MovesTo a.lr0States s symbol next) :
    ∃ states, a.itemAutomaton.subsetKeys[s]? = some states ∧
      a.itemAutomaton.subsetKeys[next]? = some (a.itemAutomaton.advance states symbol) := by
  obtain ⟨states, hstates, hsymbol, rfl⟩ := (movesTo_iff h).mp move
  refine ⟨states, hstates, StateGraph.subsetKeys_idxOf (isBounded h)
    (List.mem_of_getElem? hstates) ((mem_expandSubset_iff h).mpr ⟨hsymbol, rfl⟩)⟩

/-- Whether the state has the item, and the terminal follows the head of its rule. -/
def LooksAt (g : Grammar) (s : StateId) (item : Item) (t : TerminalId) : Prop :=
  HoldsAt g.lr0States s item ∧
    ∃ rule, g.rules.get? item.rule = some rule ∧ g.Follows rule.head t

/-- The LR(0) automaton of an augmented grammar, with FOLLOW sets as lookaheads. -/
def toLRAutomaton (h : g.IsAugmentation a) : LRAutomaton a where
  states := a.lr0States
  looks := LooksAt a
  holds_start := by
    intro item
    rw [holdsAt_iff, StateGraph.subsetKeys_zero]
    simp only [Option.some.injEq, exists_eq_left', inSubset_startStates_iff h]
  holds_next := by
    intro s symbol next move item
    obtain ⟨states, hstates, hnext⟩ := subsetKeys_of_movesTo h move
    simp only [holdsAt_iff, hnext, Option.some.injEq, exists_eq_left', inSubset_advance_iff h]
    have hseed : (fun j => ∃ i, InSubset a states i ∧ a.next? i = some symbol ∧
        j = i.advance) = MovedOver a a.lr0States s symbol := by
      funext j
      simp [MovedOver, holdsAt_iff, hstates]
    rw [hseed]
  exists_next := by
    intro s item symbol hitem hnext
    obtain ⟨states, hstates, hmem⟩ := holdsAt_iff.mp hitem
    exact ⟨_, (movesTo_iff h).mpr ⟨states, hstates, ⟨item, hmem, hnext⟩, rfl⟩⟩
  holds_of_looks := fun hlooks => hlooks.1
  looks_start := by
    refine ⟨?_, _, h.get?_accept, ?_⟩
    · rw [holdsAt_iff, StateGraph.subsetKeys_zero]
      exact ⟨_, rfl, (inSubset_startStates_iff h).mpr (.seed rfl)⟩
    · have hfollows : a.Follows a.start endOfInput := .start
      rw [h.start_eq] at hfollows
      exact hfollows
  looks_next := by
    rintro s item symbol next t ⟨hitem, rule, hrule, hfollows⟩ hnext move
    refine ⟨?_, rule, hrule, hfollows⟩
    obtain ⟨states, hstates, hkey⟩ := subsetKeys_of_movesTo h move
    obtain ⟨states', hstates', hmem⟩ := holdsAt_iff.mp hitem
    rw [hstates, Option.some.injEq] at hstates'
    subst hstates'
    exact holdsAt_iff.mpr ⟨_, hkey, (inSubset_advance_iff h).mpr (.seed ⟨item, hmem, hnext, rfl⟩)⟩
  looks_spawn := by
    rintro s item j n l t ⟨hitem, rule, hrule, hfollows⟩ hnext hj hstart
    obtain ⟨rule', hrule', rfl, -⟩ := Grammar.mem_initialItems.mp hj
    have hsplit : rule.body = rule.body.take item.marker ++
        .nonterminal rule'.head :: a.afterNext item := by
      rw [← Grammar.drop_marker_of_next? hnext, Grammar.bodyOf_eq hrule, List.take_append_drop]
    refine ⟨?_, rule', hrule', ?_⟩
    · obtain ⟨states, hstates, hmem⟩ := holdsAt_iff.mp hitem
      refine holdsAt_iff.mpr ⟨states, hstates, ?_⟩
      have hlisted := List.mem_of_getElem? hstates
      rcases ((StateGraph.mem_subsetKeys_iff (isBounded h)).mp hlisted).cases_tail with
        rfl | ⟨before, -, hleads⟩
      · rw [inSubset_startStates_iff h] at hmem ⊢
        exact .spawn hmem hnext hj
      · obtain ⟨⟨symbol, target⟩, hentry, rfl⟩ := List.mem_map.mp hleads
        obtain ⟨-, rfl⟩ := (mem_expandSubset_iff h).mp hentry
        rw [inSubset_advance_iff h] at hmem ⊢
        exact .spawn hmem hnext hj
    · rcases Grammar.startsWith_append_iff.mp hstart with hstart | ⟨hvanish, hstart⟩
      · exact .starts hrule hsplit hstart
      · rw [Grammar.startsWith_singleton_iff.mp hstart]
        exact .inherited hrule hsplit hvanish hfollows

/-- With FOLLOW sets a complete item is reduced on what follows the head of its rule. -/
theorem mem_reduceLookaheads_iff (h : g.IsAugmentation a) {item : Item} {own : NatSet}
    {t : TerminalId} :
    t ∈ ParseTable.reduceLookaheads a (some (FollowSets.ofGrammar a (.ofGrammar a))) item own ↔
      ∃ rule, a.rules.get? item.rule = some rule ∧ a.Follows rule.head t := by
  rw [ParseTable.reduceLookaheads]
  cases hrule : a.rules.get? item.rule with
  | none => simp
  | some rule =>
      simp only [NatSet.mem_toList, FollowSets.mem_follow_iff h.isClosed, Option.some.injEq,
        exists_eq_left']

theorem looksAt_iff (h : g.IsAugmentation a) {s : StateId} {item : Item} {t : TerminalId} :
    LooksAt a s item t ↔ ReducesOn a
      (some (FollowSets.ofGrammar a (.ofGrammar a))) a.lr0States s item t := by
  simp only [LooksAt, ReducesOn, mem_reduceLookaheads_iff h, HoldsAt, ItemSet.mem_cores_iff]
  constructor
  · rintro ⟨⟨state, hstate, own, hown⟩, hrule⟩
    exact ⟨state, own, hstate, hown, hrule⟩
  · rintro ⟨state, own, hstate, hown, hrule⟩
    exact ⟨⟨state, hstate, own, hown⟩, hrule⟩

/-- The table with FOLLOW sets follows the items of the LR(0) automaton. -/
theorem drives_slr1 (h : g.IsAugmentation a) : (toLRAutomaton h).Drives (ParseTable.slr1 a) :=
  ParseTable.drives_ofStates (toLRAutomaton h) .slr1 fun _ _ _ => looksAt_iff h

end ItemAutomaton

end GrammarAnalysis

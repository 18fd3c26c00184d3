import GrammarAnalysis.Proofs.Automaton.Edges

/-!
# The deterministic graph of the subsets

The states of the determinized graph are numbered subsets, and an edge goes from the number
of a subset to the number of the subset that follows it.  A word therefore leads to the
number of the set of states after the word, unless this set is empty, and then nowhere.

In a deterministic graph the set of states after a word has one member at most.  If every
state is reached, the subsets are the sets of one state, so that determinizing once more
gives as many states as there were.
-/

namespace GrammarAnalysis.StateGraph

variable {σ τ : Type} [DecidableEq σ] {graph : StateGraph σ τ} {n m q r last : NodeId}
  {symbol : σ} {word : List σ} {states next : NatSet}

/-! ## Subsets after words -/

theorem mem_symbols_of_mem_targets (h : m ∈ graph.targets n symbol) : symbol ∈ graph.symbols n := by
  rw [targets] at h
  rw [symbols]
  cases hnode : graph.nodes[n]? with
  | none => simp [hnode] at h
  | some node =>
      cases hedges : node.edges.get? symbol with
      | none => simp [hnode, hedges] at h
      | some targets => simpa using OrderedMap.mem_keys_of_get? hedges

/-- A set that has a follower has a member with an edge. -/
theorem exists_target_of_mem_advance (h : graph.IsBounded) (hn : n ∈ graph.advance states symbol) :
    ∃ k ∈ states, ∃ m, m ∈ graph.targets k symbol := by
  obtain ⟨m, hm, -⟩ := (mem_epsilonClosure_iff h fun m hm =>
    has_moveBy h states symbol m (NatSet.mem_toList.mp hm)).mp hn
  obtain ⟨k, hk, htarget⟩ := mem_moveBy_iff.mp (NatSet.mem_toList.mp hm)
  exact ⟨k, hk, m, htarget⟩

/-- The sets that follow are the nonempty ones. -/
theorem mem_expandSubset_iff_nonempty (h : graph.IsBounded) :
    (symbol, next) ∈ graph.expandSubset states ↔
      next = graph.advance states symbol ∧ ∃ n, n ∈ next := by
  rw [mem_expandSubset_iff, NatSet.isEmpty_eq_false_iff]
  refine and_iff_right_of_imp ?_
  rintro ⟨rfl, n, hn⟩
  obtain ⟨k, hk, m, htarget⟩ := exists_target_of_mem_advance h hn
  exact ⟨k, hk, mem_symbols_of_mem_targets htarget⟩

/-- Once a set of states is empty, it stays so. -/
theorem exists_mem_of_mem_foldl (h : graph.IsBounded) (hn : n ∈ word.foldl graph.advance states) :
    ∃ k, k ∈ states := by
  induction word generalizing states with
  | nil => exact ⟨n, hn⟩
  | cons symbol word ih =>
      obtain ⟨m, hm⟩ := ih hn
      obtain ⟨k, hk, -⟩ := exists_target_of_mem_advance h hm
      exact ⟨k, hk⟩

/-- The set of states after a word. -/
def statesAfter (graph : StateGraph σ τ) (word : List σ) : NatSet :=
  word.foldl graph.advance graph.startStates

theorem statesAfter_concat (graph : StateGraph σ τ) (word : List σ) (symbol : σ) :
    graph.statesAfter (word ++ [symbol]) = graph.advance (graph.statesAfter word) symbol :=
  List.foldl_concat _ _ _ _

theorem mem_statesAfter_iff (h : graph.IsBounded) :
    last ∈ graph.statesAfter word ↔ graph.Path root word last := by
  have hroot : ∀ n ∈ [root], n < graph.size := fun n hn => by
    rw [List.mem_singleton.mp hn]
    exact h.root_lt
  rw [statesAfter, startStates, mem_foldl_advance_iff h hroot]
  simp

/-- The listed subsets are the nonempty sets of states after words. -/
theorem mem_subsetKeys_iff_exists_word (h : graph.IsBounded) :
    states ∈ graph.subsetKeys ↔ ∃ word, states = graph.statesAfter word ∧ ∃ n, n ∈ states := by
  rw [mem_subsetKeys_iff h]
  constructor
  · intro hreach
    induction hreach with
    | refl => exact ⟨[], rfl, root, (mem_statesAfter_iff h).mpr (Path.refl root)⟩
    | tail _ hleads ih =>
        obtain ⟨word, rfl, -⟩ := ih
        obtain ⟨⟨symbol, next⟩, hentry, rfl⟩ := List.mem_map.mp hleads
        obtain ⟨rfl, hn⟩ := (mem_expandSubset_iff_nonempty h).mp hentry
        exact ⟨word ++ [symbol], (graph.statesAfter_concat word symbol).symm, hn⟩
  · rintro ⟨word, rfl, n, hn⟩
    induction word using List.reverseRecOn generalizing n with
    | nil => exact Relation.ReflTransGen.refl
    | append_singleton word symbol ih =>
        rw [statesAfter_concat] at hn ⊢
        obtain ⟨k, hk, -⟩ := exists_target_of_mem_advance h hn
        refine (ih k hk).tail (List.mem_map.mpr ⟨(symbol, _), ?_, rfl⟩)
        exact (mem_expandSubset_iff_nonempty h).mpr ⟨rfl, n, hn⟩

theorem nodup_subsetKeys (graph : StateGraph σ τ) : graph.subsetKeys.Nodup := nodup_explore _ _

theorem idxOf_subsetKeys_iff (hstates : states ∈ graph.subsetKeys) :
    q = graph.subsetKeys.idxOf states ↔ graph.subsetKeys[q]? = some states :=
  eq_idxOf_iff graph.nodup_subsetKeys hstates

/-- The nonempty follower of a listed set is listed. -/
theorem advance_mem_subsetKeys (h : graph.IsBounded) (hstates : states ∈ graph.subsetKeys)
    (hnext : ∃ n, n ∈ graph.advance states symbol) :
    graph.advance states symbol ∈ graph.subsetKeys := by
  obtain ⟨word, rfl, -⟩ := (mem_subsetKeys_iff_exists_word h).mp hstates
  rw [← statesAfter_concat] at hnext ⊢
  exact (mem_subsetKeys_iff_exists_word h).mpr ⟨_, rfl, hnext⟩

/-! ## States and edges of the deterministic graph -/

theorem getElem?_nodes_determinize :
    graph.determinize.nodes[q]? = graph.subsetKeys[q]?.map graph.subsetNode := by
  rw [← Array.getElem?_toList, nodes_determinize, List.getElem?_map]

theorem size_determinize (graph : StateGraph σ τ) :
    graph.determinize.size = graph.subsetKeys.length := by
  rw [size, ← Array.length_toList, nodes_determinize, List.length_map]

theorem epsilons_determinize : graph.determinize.epsilons q = [] := by
  rw [epsilons, getElem?_nodes_determinize]
  cases graph.subsetKeys[q]? <;> rfl

theorem isFinal_determinize_iff :
    graph.determinize.isFinal q = true ↔
      ∃ states, graph.subsetKeys[q]? = some states ∧ graph.anyFinal states = true := by
  rw [isFinal, getElem?_nodes_determinize]
  cases graph.subsetKeys[q]? <;> simp [subsetNode]

theorem get?_edges_subsetNode (h : graph.IsBounded) {targets : List NodeId} :
    (graph.subsetNode states).edges.get? symbol = some targets ↔
      (∃ n, n ∈ graph.advance states symbol) ∧
        targets = [graph.subsetKeys.idxOf (graph.advance states symbol)] := by
  rw [OrderedMap.get?_eq_some_iff, entries_subsetNode, List.mem_map]
  simp only [Prod.exists, mem_expandSubset_iff_nonempty h, Prod.mk.injEq]
  constructor
  · rintro ⟨_, _, ⟨rfl, hn⟩, rfl, rfl⟩
    exact ⟨hn, rfl⟩
  · rintro ⟨hn, rfl⟩
    exact ⟨symbol, _, ⟨rfl, hn⟩, rfl, rfl⟩

theorem mem_targets_determinize_iff (h : graph.IsBounded) :
    r ∈ graph.determinize.targets q symbol ↔
      ∃ states, graph.subsetKeys[q]? = some states ∧ (∃ n, n ∈ graph.advance states symbol) ∧
        graph.subsetKeys[r]? = some (graph.advance states symbol) := by
  rw [targets, getElem?_nodes_determinize]
  cases hkey : graph.subsetKeys[q]? with
  | none => simp
  | some states =>
      have hstates := List.mem_of_getElem? hkey
      simp only [Option.map_some, Option.bind_some, Option.some.injEq, exists_eq_left']
      cases hedges : (graph.subsetNode states).edges.get? symbol with
      | none =>
          have hempty : ¬ ∃ n, n ∈ graph.advance states symbol := fun hn => by
            rw [(get?_edges_subsetNode h).mpr ⟨hn, rfl⟩] at hedges
            contradiction
          simp [hempty]
      | some targets =>
          obtain ⟨hn, rfl⟩ := (get?_edges_subsetNode h).mp hedges
          rw [Option.getD_some, List.mem_singleton, and_iff_right hn]
          exact idxOf_subsetKeys_iff (advance_mem_subsetKeys h hstates hn)

theorem isBounded_determinize (h : graph.IsBounded) : graph.determinize.IsBounded := by
  have hlt : ∀ {q states}, graph.subsetKeys[q]? = some states → q < graph.determinize.size := by
    intro q states hq
    rw [size_determinize]
    exact (List.getElem?_eq_some_iff.mp hq).1
  refine ⟨hlt graph.subsetKeys_zero, fun q r hr => ?_, fun q symbol r hr => ?_⟩
  · rw [epsilons_determinize] at hr
    contradiction
  · obtain ⟨_, -, -, hnext⟩ := (mem_targets_determinize_iff h).mp hr
    exact hlt hnext

/-! ## Deterministic graphs -/

theorem isDeterministic_determinize (graph : StateGraph σ τ) :
    graph.determinize.isDeterministic = true := by
  rw [isDeterministic, nodes_determinize, List.all_eq_true]
  intro node hnode
  obtain ⟨states, -, rfl⟩ := List.mem_map.mp hnode
  have hvalues : ∀ targets ∈ (graph.subsetNode states).edges.values, targets.length ≤ 1 := by
    rw [OrderedMap.values, entries_subsetNode]
    intro targets htargets
    obtain ⟨entry, hentry, rfl⟩ := List.mem_map.mp htargets
    obtain ⟨follower, -, rfl⟩ := List.mem_map.mp hentry
    exact le_rfl
  simpa [subsetNode] using hvalues

omit [DecidableEq σ] in
theorem edges_of_isDeterministic (hd : graph.isDeterministic = true) {node : Node σ τ}
    (hnode : graph.nodes[n]? = some node) :
    node.epsilons = [] ∧ ∀ targets ∈ node.edges.values, targets.length ≤ 1 := by
  have hall := List.all_eq_true.mp hd node (Array.mem_toList_iff.mpr (Array.mem_of_getElem? hnode))
  simpa using hall

omit [DecidableEq σ] in
theorem epsilons_of_isDeterministic (hd : graph.isDeterministic = true) : graph.epsilons n = [] := by
  rw [epsilons]
  cases hnode : graph.nodes[n]? with
  | none => rfl
  | some node => exact (edges_of_isDeterministic hd hnode).1

theorem eq_of_mem_targets (hd : graph.isDeterministic = true) (hm : m ∈ graph.targets n symbol)
    (hr : r ∈ graph.targets n symbol) : m = r := by
  rw [targets] at hm hr
  cases hnode : graph.nodes[n]? with
  | none => simp [hnode] at hm
  | some node =>
      cases hedges : node.edges.get? symbol with
      | none => simp [hnode, hedges] at hm
      | some targets =>
          have hlength : targets.length ≤ 1 :=
            (edges_of_isDeterministic hd hnode).2 targets (OrderedMap.mem_values_of_get? hedges)
          simp only [hnode, Option.bind_some, hedges, Option.getD_some] at hm hr
          cases targets with
          | nil => contradiction
          | cons first rest =>
              have hrest : rest = [] := by simpa using hlength
              rw [hrest] at hm hr
              rw [List.mem_singleton.mp hm, List.mem_singleton.mp hr]

/-- In a deterministic graph a path that reads nothing goes nowhere. -/
theorem path_nil_iff_of_isDeterministic (hd : graph.isDeterministic = true) :
    graph.Path n [] m ↔ n = m := by
  rw [path_nil_iff]
  constructor
  · intro hreach
    rcases hreach.cases_head with heq | ⟨k, hedge, -⟩
    · exact heq
    · rw [epsilons_of_isDeterministic hd] at hedge
      contradiction
  · rintro rfl
    exact Relation.ReflTransGen.refl

theorem path_cons_iff_of_isDeterministic (hd : graph.isDeterministic = true) :
    graph.Path n (symbol :: word) last ↔ ∃ m ∈ graph.targets n symbol, graph.Path m word last := by
  rw [path_cons_iff]
  simp only [← path_nil_iff, path_nil_iff_of_isDeterministic hd, exists_eq_left']

/-- A word leads to one state at most. -/
theorem Path.eq_of_isDeterministic (hd : graph.isDeterministic = true)
    (hm : graph.Path n word m) (hr : graph.Path n word r) : m = r := by
  induction word generalizing n with
  | nil =>
      rw [path_nil_iff_of_isDeterministic hd] at hm hr
      exact hm.symm.trans hr
  | cons symbol word ih =>
      obtain ⟨k, hk, hm⟩ := (path_cons_iff_of_isDeterministic hd).mp hm
      obtain ⟨j, hj, hr⟩ := (path_cons_iff_of_isDeterministic hd).mp hr
      rw [eq_of_mem_targets hd hj hk] at hr
      exact ih hm hr

theorem Path.lt_size (h : graph.IsBounded) (hn : n < graph.size) (hpath : graph.Path n word m) :
    m < graph.size := by
  induction hpath with
  | refl => exact hn
  | epsilon edge _ ih => exact ih (h.epsilons_lt _ _ edge)
  | read edge _ ih => exact ih (h.targets_lt _ _ _ edge)

theorem statesAfter_eq_singleton (h : graph.IsBounded) (hd : graph.isDeterministic = true)
    (hpath : graph.Path root word q) : graph.statesAfter word = NatSet.singleton q := by
  refine NatSet.ext fun n => ?_
  rw [mem_statesAfter_iff h, NatSet.mem_singleton]
  constructor
  · exact fun hn => hn.eq_of_isDeterministic hd hpath
  · rintro rfl
    exact hpath

/-- If all states of a deterministic graph are reached, the subsets are the sets of one state. -/
theorem perm_subsetKeys (h : graph.IsBounded) (hd : graph.isDeterministic = true)
    (hreached : ∀ q < graph.size, ∃ word, graph.Path root word q) :
    graph.subsetKeys.Perm ((List.range graph.size).map NatSet.singleton) := by
  have hsingleton : Function.Injective NatSet.singleton := fun q r hqr =>
    NatSet.mem_singleton.mp (hqr ▸ NatSet.mem_singleton.mpr rfl)
  refine (List.perm_ext_iff_of_nodup graph.nodup_subsetKeys
    (List.nodup_range.map hsingleton)).mpr fun states => ?_
  rw [mem_subsetKeys_iff_exists_word h, List.mem_map]
  constructor
  · rintro ⟨word, rfl, q, hq⟩
    have hpath := (mem_statesAfter_iff h).mp hq
    exact ⟨q, List.mem_range.mpr (hpath.lt_size h h.root_lt),
      (statesAfter_eq_singleton h hd hpath).symm⟩
  · rintro ⟨q, hq, rfl⟩
    obtain ⟨word, hpath⟩ := hreached q (List.mem_range.mp hq)
    exact ⟨word, (statesAfter_eq_singleton h hd hpath).symm, q, NatSet.mem_singleton.mpr rfl⟩

theorem size_determinize_of_isDeterministic (h : graph.IsBounded)
    (hd : graph.isDeterministic = true)
    (hreached : ∀ q < graph.size, ∃ word, graph.Path root word q) :
    graph.determinize.size = graph.size := by
  rw [size_determinize, (perm_subsetKeys h hd hreached).length_eq, List.length_map,
    List.length_range]

/-! ## Words in the deterministic graph -/

/-- From the number of a set a word leads to the number of the set after the word, if this is
not empty. -/
theorem path_determinize_iff (h : graph.IsBounded) (hq : graph.subsetKeys[q]? = some states) :
    graph.determinize.Path q word r ↔ (∃ n, n ∈ word.foldl graph.advance states) ∧
      graph.subsetKeys[r]? = some (word.foldl graph.advance states) := by
  have hd := graph.isDeterministic_determinize
  have hstates := List.mem_of_getElem? hq
  induction word generalizing q states with
  | nil =>
      obtain ⟨-, -, hn⟩ := (mem_subsetKeys_iff_exists_word h).mp hstates
      rw [path_nil_iff_of_isDeterministic hd, List.foldl_nil, and_iff_right hn,
        ← idxOf_subsetKeys_iff hstates, ← (idxOf_subsetKeys_iff hstates).mpr hq, eq_comm]
  | cons symbol word ih =>
      rw [path_cons_iff_of_isDeterministic hd, List.foldl_cons]
      constructor
      · rintro ⟨m, hm, hpath⟩
        obtain ⟨_, hq', -, hnext⟩ := (mem_targets_determinize_iff h).mp hm
        rw [Option.some.inj (hq'.symm.trans hq)] at hnext
        exact (ih hnext (List.mem_of_getElem? hnext)).mp hpath
      · rintro ⟨⟨n, hn⟩, hr⟩
        have hadvance := exists_mem_of_mem_foldl h hn
        have hlisted := advance_mem_subsetKeys h hstates hadvance
        have hnext := List.getElem?_idxOf hlisted
        exact ⟨_, (mem_targets_determinize_iff h).mpr ⟨states, hq, hadvance, hnext⟩,
          (ih hnext hlisted).mpr ⟨⟨n, hn⟩, hr⟩⟩

/-- A word leads to the number of the set of states after it, if this is not empty. -/
theorem path_root_determinize_iff (h : graph.IsBounded) :
    graph.determinize.Path root word q ↔
      (∃ n, n ∈ graph.statesAfter word) ∧ graph.subsetKeys[q]? = some (graph.statesAfter word) :=
  path_determinize_iff h graph.subsetKeys_zero

theorem exists_path_determinize_iff (h : graph.IsBounded) :
    (∃ q, graph.determinize.Path root word q) ↔ ∃ n, n ∈ graph.statesAfter word := by
  simp only [path_root_determinize_iff h]
  constructor
  · rintro ⟨q, hn, -⟩
    exact hn
  · intro hn
    have hlisted := (mem_subsetKeys_iff_exists_word h).mpr ⟨word, rfl, hn⟩
    exact ⟨_, hn, List.getElem?_idxOf hlisted⟩

/-- The state that a word leads to is tagged with the set of states after the word. -/
theorem exists_node_of_path (h : graph.IsBounded) (hpath : graph.determinize.Path root word q) :
    ∃ node, graph.determinize.nodes[q]? = some node ∧ node.tag = graph.statesAfter word ∧
      node.isFinal = graph.anyFinal node.tag := by
  obtain ⟨-, hkey⟩ := (path_root_determinize_iff h).mp hpath
  refine ⟨graph.subsetNode (graph.statesAfter word), ?_, rfl, rfl⟩
  rw [getElem?_nodes_determinize, hkey, Option.map_some]

/-- Different states of the deterministic graph have different tags. -/
theorem eq_of_tag_eq {node node' : Node σ NatSet}
    (hq : graph.determinize.nodes[q]? = some node)
    (hr : graph.determinize.nodes[r]? = some node') (htag : node.tag = node'.tag) : q = r := by
  rw [getElem?_nodes_determinize, Option.map_eq_some_iff] at hq hr
  obtain ⟨states, hkey, rfl⟩ := hq
  obtain ⟨others, hkey', rfl⟩ := hr
  have hsame : states = others := htag
  subst hsame
  have hstates := List.mem_of_getElem? hkey
  rw [(idxOf_subsetKeys_iff hstates).mpr hkey, (idxOf_subsetKeys_iff hstates).mpr hkey']

/-- Every state of the deterministic graph is reached by a word. -/
theorem exists_word_of_lt (h : graph.IsBounded) (hq : q < graph.determinize.size) :
    ∃ word, graph.determinize.Path root word q := by
  rw [size_determinize] at hq
  have hkey := List.getElem?_eq_getElem hq
  obtain ⟨word, heq, hn⟩ := (mem_subsetKeys_iff_exists_word h).mp (List.getElem_mem hq)
  rw [heq] at hkey hn
  exact ⟨word, (path_root_determinize_iff h).mpr ⟨hn, hkey⟩⟩

/-- Both graphs have the same words. -/
theorem hasWord_determinize_iff (h : graph.IsBounded) :
    graph.determinize.HasWord word ↔ graph.HasWord word := by
  simp only [HasWord, isFinal_determinize_iff, path_root_determinize_iff h, ← mem_statesAfter_iff h]
  constructor
  · rintro ⟨q, ⟨states, hq, hfinal⟩, -, hafter⟩
    rw [Option.some.inj (hq.symm.trans hafter)] at hfinal
    obtain ⟨n, hn, hfinal⟩ := List.any_eq_true.mp hfinal
    exact ⟨n, hfinal, hn⟩
  · rintro ⟨n, hfinal, hn⟩
    have hlisted := (mem_subsetKeys_iff_exists_word h).mpr ⟨word, rfl, n, hn⟩
    have hkey := List.getElem?_idxOf hlisted
    exact ⟨_, ⟨_, hkey, List.any_eq_true.mpr ⟨n, hn, hfinal⟩⟩, ⟨n, hn⟩, hkey⟩

theorem recognizes_determinize (h : graph.IsBounded) :
    graph.determinize.recognizes word = graph.recognizes word := by
  rw [Bool.eq_iff_iff, recognizes_iff_hasWord (isBounded_determinize h),
    recognizes_iff_hasWord h, hasWord_determinize_iff h]

/-! ## Graphs that are built edge by edge -/

/-- For every graph that is made by adding states and edges, the loops of the epsilon closures
and of the construction end, and they give a deterministic graph, which recognizes the same
words: those of the walks along the added edges to a final state.  A word leads to a state
exactly if such a walk from the root reads it.  The tag of the state is the set of the ends of
these walks, and the state is final if one of them is.  Different states have different tags.
Determinizing once more comes to an end too and gives as many states. -/
theorem determinize_exact {links : List (Link σ)} (h : graph.IsBuilt links) :
    (∀ seeds : List NodeId, (∀ n ∈ seeds, n < graph.size) →
      Collects graph.epsilons seeds (graph.epsilonClosure seeds)) ∧
    Explores graph.expandSubset (fun followers => followers.map Prod.snd) [] [graph.startStates]
      graph.subsets ∧
    graph.determinize.isDeterministic = true ∧
    (∀ word, graph.determinize.recognizes word = graph.recognizes word ∧
      (graph.recognizes word = true ↔
        ∃ n, graph.isFinal n = true ∧ Link.Walk links root word n)) ∧
    (∀ word, (∃ q, graph.determinize.Path root word q) ↔ ∃ n, Link.Walk links root word n) ∧
    (∀ word q, graph.determinize.Path root word q →
      ∃ node, graph.determinize.nodes[q]? = some node ∧
        (∀ n, n ∈ node.tag ↔ Link.Walk links root word n) ∧
        (node.isFinal = true ↔ ∃ n ∈ node.tag, graph.isFinal n = true)) ∧
    (∀ (q r : NodeId) (node node' : Node σ NatSet), graph.determinize.nodes[q]? = some node →
      graph.determinize.nodes[r]? = some node' → node.tag = node'.tag → q = r) ∧
    Explores graph.determinize.expandSubset (fun followers => followers.map Prod.snd) []
      [graph.determinize.startStates] graph.determinize.subsets ∧
    graph.determinize.determinize.size = graph.determinize.size := by
  have hb := h.isBounded
  have hafter : ∀ {word n}, n ∈ graph.statesAfter word ↔ Link.Walk links root word n :=
    (mem_statesAfter_iff hb).trans h.path_iff
  refine ⟨fun seeds => collects_epsilonClosure hb, explores_subsets hb,
    isDeterministic_determinize graph, fun word => ⟨recognizes_determinize hb, ?_⟩,
    fun word => ?_, fun word q hpath => ?_, fun q r node node' => eq_of_tag_eq,
    explores_subsets (isBounded_determinize hb), ?_⟩
  · simp only [recognizes_iff_hasWord hb, HasWord, h.path_iff]
  · rw [exists_path_determinize_iff hb]
    exact exists_congr fun n => hafter
  · obtain ⟨node, hnode, htag, hfinal⟩ := exists_node_of_path hb hpath
    refine ⟨node, hnode, fun n => ?_, ?_⟩
    · rw [htag, hafter]
    · rw [hfinal, anyFinal, List.any_eq_true]
      rfl
  · exact size_determinize_of_isDeterministic (isBounded_determinize hb)
      (isDeterministic_determinize graph) fun q hq => exists_word_of_lt hb hq

/-- A graph with a cycle of epsilon edges and two edges with one symbol at the root. -/
theorem determinize_exact_cyclic :
    let states := ((ofRoot () false).addNode () true).2.addNode () false
    let edges := ((states.2.addEdge 0 'a' 0).addEdge 0 'a' 1).addEdge 2 'b' 0
    let graph := (edges.addEpsilon 1 2).addEpsilon 2 1
    let links := [⟨0, some 'a', 0⟩, ⟨0, some 'a', 1⟩, ⟨2, some 'b', 0⟩, ⟨1, none, 2⟩, ⟨2, none, 1⟩]
    graph.IsBuilt links ∧ graph.determinize.size = 2 ∧ graph.determinize.determinize.size = 2 ∧
      graph.determinize.recognizes ['a', 'b', 'a'] = true ∧
      (∃ n, graph.isFinal n = true ∧ Link.Walk links root ['a', 'b', 'a'] n) ∧
      ¬ ∃ q, graph.determinize.Path root ['b'] q := by
  intro states edges graph links
  have hbuilt : graph.IsBuilt links :=
    .addEpsilon (by decide) (by decide) <| .addEpsilon (by decide) (by decide) <|
      .addEdge 'b' (by decide) (by decide) <| .addEdge 'a' (by decide) (by decide) <|
        .addEdge 'a' (by decide) (by decide) <|
          .addNode () false (.addNode () true (.ofRoot () false))
  have hsize : graph.determinize.size = 2 := by decide
  have hread : graph.recognizes ['a', 'b', 'a'] = true := by decide
  have hstuck : graph.statesAfter ['b'] = ∅ := by decide
  obtain ⟨-, -, -, hwords, -, -, -, -, hagain⟩ := determinize_exact hbuilt
  refine ⟨hbuilt, hsize, hagain.trans hsize, (hwords _).1.trans hread, (hwords _).2.mp hread, ?_⟩
  rintro ⟨q, hpath⟩
  obtain ⟨⟨n, hn⟩, -⟩ := (path_root_determinize_iff hbuilt.isBounded).mp hpath
  rw [hstuck] at hn
  exact NatSet.not_mem_empty n hn

end GrammarAnalysis.StateGraph

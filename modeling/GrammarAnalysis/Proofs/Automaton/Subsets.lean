import GrammarAnalysis.Automaton.Determinization
import GrammarAnalysis.Proofs.Collections.Maps
import GrammarAnalysis.Proofs.Collections.Sets
import GrammarAnalysis.Proofs.Iteration.Exploration

/-!
# The subset construction explores every subset it needs

In a graph whose edges stay within its states, the epsilon closure of some
states consists of the states they lead to, and the subset construction lists
every subset that can be reached from the start states.
-/

namespace GrammarAnalysis

/-- Sets with listed members only are no more than the subsets of the list. -/
theorem atMost_of_sets {P : NatSet → Prop} {listed : List Nat}
    (h : ∀ states, P states → ∀ n ∈ states, n ∈ listed) {bound : Nat}
    (hbound : 2 ^ listed.length ≤ bound) : AtMost bound P := by
  refine atMost_of_subsets (fun states : NatSet => states.toList.toFinset) listed.toFinset ?_ ?_ ?_
  · intro states hstates n hn
    exact List.mem_toFinset.mpr (h states hstates n (List.mem_toFinset.mp hn))
  · intro states others _ _ heq
    refine NatSet.ext fun n => ?_
    rw [← NatSet.mem_toList, ← NatSet.mem_toList, ← List.mem_toFinset, ← List.mem_toFinset, heq]
  · exact (Nat.pow_le_pow_right (by omega) (List.toFinset_card_le _)).trans hbound

/-- Whether following the successors of the seeds comes to an end, with the set of all that is met. -/
def Collects (successors : Nat → List Nat) (seeds : List Nat) (found : NatSet) : Prop :=
  ∃ listed, Explores successors id [] (distinct seeds) listed ∧
    found = NatSet.ofList (listed.map Prod.fst)

namespace StateGraph

variable {σ τ : Type} [DecidableEq σ] {graph : StateGraph σ τ}

omit [DecidableEq σ] in
/-- Whether a set consists of states of the graph. -/
def Has (graph : StateGraph σ τ) (states : NatSet) : Prop := ∀ n ∈ states, n < graph.size

/-- Whether the root and the targets of all edges are states of the graph. -/
structure IsBounded (graph : StateGraph σ τ) : Prop where
  root_lt : root < graph.size
  epsilons_lt : ∀ n m, m ∈ graph.epsilons n → m < graph.size
  targets_lt : ∀ n symbol m, m ∈ graph.targets n symbol → m < graph.size

theorem atMost_lt (size bound : Nat) (h : size ≤ bound) : AtMost bound (· < size) := by
  apply atMost_of_mem fun n hn => List.mem_range.mpr hn
  rw [List.length_range]
  exact h

/-- The epsilon closure consists of the states that epsilon edges lead to. -/
theorem mem_epsilonClosure_iff (h : graph.IsBounded) {seeds : List NodeId}
    (hseeds : ∀ n ∈ seeds, n < graph.size) {n : NodeId} :
    n ∈ graph.epsilonClosure seeds ↔
      ∃ r ∈ seeds, Relation.ReflTransGen (fun k j => j ∈ graph.epsilons k) r n := by
  have hclosed : ∀ k, k < graph.size → ∀ j, Leads graph.epsilons id k j → j < graph.size :=
    fun k _ j hj => h.epsilons_lt k j hj
  rw [epsilonClosure, NatSet.mem_ofList]
  exact mem_explore_iff hseeds hclosed (atMost_lt graph.size _ (by omega))

/-- The loop of the epsilon closure ends. -/
theorem collects_epsilonClosure (h : graph.IsBounded) {seeds : List NodeId}
    (hseeds : ∀ n ∈ seeds, n < graph.size) :
    Collects graph.epsilons seeds (graph.epsilonClosure seeds) :=
  ⟨_, explores_explore hseeds (fun k _ j hj => h.epsilons_lt k j hj)
    (atMost_lt graph.size _ (by omega)), rfl⟩

theorem has_epsilonClosure (h : graph.IsBounded) {seeds : List NodeId}
    (hseeds : ∀ n ∈ seeds, n < graph.size) : graph.Has (graph.epsilonClosure seeds) := by
  intro n hn
  obtain ⟨r, hr, hreach⟩ := (mem_epsilonClosure_iff h hseeds).mp hn
  rcases hreach.cases_tail with rfl | ⟨m, -, hedge⟩
  · exact hseeds n hr
  · exact h.epsilons_lt m n hedge

theorem mem_moveBy_iff {states : NatSet} {symbol : σ} {n : NodeId} :
    n ∈ graph.moveBy states symbol ↔ ∃ m ∈ states, n ∈ graph.targets m symbol := by
  simp [moveBy]

theorem has_moveBy (h : graph.IsBounded) (states : NatSet) (symbol : σ) :
    graph.Has (graph.moveBy states symbol) := by
  intro n hn
  obtain ⟨m, -, htarget⟩ := mem_moveBy_iff.mp hn
  exact h.targets_lt m symbol n htarget

theorem mem_symbolsOf_iff {states : NatSet} {symbol : σ} :
    symbol ∈ graph.symbolsOf states ↔ ∃ n ∈ states, symbol ∈ graph.symbols n := by
  simp [symbolsOf]

theorem mem_expandSubset_iff {states next : NatSet} {symbol : σ} :
    (symbol, next) ∈ graph.expandSubset states ↔
      (∃ n ∈ states, symbol ∈ graph.symbols n) ∧ next = graph.advance states symbol ∧
        next.isEmpty = false := by
  simp only [expandSubset, List.mem_filter, List.mem_map, mem_symbolsOf_iff, Prod.mk.injEq,
    Bool.not_eq_true']
  constructor
  · rintro ⟨⟨symbol, hsymbol, rfl, rfl⟩, hne⟩
    exact ⟨hsymbol, rfl, hne⟩
  · rintro ⟨hsymbol, rfl, hne⟩
    exact ⟨⟨symbol, hsymbol, rfl, rfl⟩, hne⟩

theorem nodup_expandSubset (graph : StateGraph σ τ) (states : NatSet) :
    ((graph.expandSubset states).map Prod.fst).Nodup := by
  refine List.Nodup.sublist (List.filter_sublist.map Prod.fst) ?_
  rw [List.map_map]
  have hid : (Prod.fst ∘ fun symbol => (symbol, graph.advance states symbol)) = id := rfl
  rw [hid, List.map_id]
  exact nodup_distinct _

/-! ## Listed subsets -/

/-- The subsets in order of discovery. -/
def subsetKeys (graph : StateGraph σ τ) : List NatSet := graph.subsets.map Prod.fst

omit [DecidableEq σ] in
/-- There are no more subsets than the bound of the construction. -/
theorem atMost_has (graph : StateGraph σ τ) :
    AtMost (Nat.pow 2 (graph.size + 1) + 1) graph.Has := by
  apply atMost_of_sets fun _ h n hn => List.mem_range.mpr (h n hn)
  rw [List.length_range]
  exact (Nat.pow_le_pow_right (by omega) (Nat.le_succ _)).trans (Nat.le_succ _)

theorem has_startStates (h : graph.IsBounded) : graph.Has graph.startStates := by
  refine has_epsilonClosure h fun n hn => ?_
  rw [List.mem_singleton.mp hn]
  exact h.root_lt

theorem has_roots (h : graph.IsBounded) : ∀ states ∈ [graph.startStates], graph.Has states := by
  intro states hstates
  rw [List.mem_singleton.mp hstates]
  exact has_startStates h

theorem has_advance (h : graph.IsBounded) (states : NatSet) (symbol : σ) :
    graph.Has (graph.advance states symbol) :=
  has_epsilonClosure h fun n hn => has_moveBy h states symbol n hn

theorem has_of_leads (h : graph.IsBounded) {states next : NatSet}
    (hleads : Leads graph.expandSubset (fun followers => followers.map Prod.snd) states next) :
    graph.Has next := by
  obtain ⟨⟨symbol, target⟩, hentry, rfl⟩ := List.mem_map.mp hleads
  obtain ⟨-, rfl, -⟩ := mem_expandSubset_iff.mp hentry
  exact has_advance h states symbol

theorem mem_subsetKeys_iff (h : graph.IsBounded) {states : NatSet} :
    states ∈ graph.subsetKeys ↔ Relation.ReflTransGen
      (Leads graph.expandSubset fun followers => followers.map Prod.snd)
      graph.startStates states := by
  rw [subsetKeys, subsets, mem_explore_iff (has_roots h) (fun _ _ _ hj => has_of_leads h hj)
    (atMost_has graph)]
  simp

/-- The loop of the construction ends. -/
theorem explores_subsets (h : graph.IsBounded) :
    Explores graph.expandSubset (fun followers => followers.map Prod.snd) [] [graph.startStates]
      graph.subsets := by
  rw [← distinct_singleton graph.startStates]
  exact explores_explore (has_roots h) (fun _ _ _ hj => has_of_leads h hj) (atMost_has graph)

theorem subsetKeys_zero (graph : StateGraph σ τ) :
    graph.subsetKeys[0]? = some graph.startStates :=
  head_explore graph.startStates

/-- The subsets that follow a listed one are listed. -/
theorem subsetKeys_idxOf (h : graph.IsBounded) {states next : NatSet} {symbol : σ}
    (hstates : states ∈ graph.subsetKeys)
    (hnext : (symbol, next) ∈ graph.expandSubset states) :
    graph.subsetKeys[graph.subsetKeys.idxOf next]? = some next := by
  refine List.getElem?_idxOf ((mem_subsetKeys_iff h).mpr ?_)
  exact ((mem_subsetKeys_iff h).mp hstates).tail (List.mem_map_of_mem hnext)

/-- The state of the deterministic graph that stands for a subset. -/
def subsetNode (graph : StateGraph σ τ) (states : NatSet) : Node σ NatSet where
  edges := OrderedMap.ofList ((graph.expandSubset states).map
    fun entry => (entry.1, [graph.subsetKeys.idxOf entry.2]))
  epsilons := []
  isFinal := graph.anyFinal states
  tag := states

theorem nodes_determinize (graph : StateGraph σ τ) :
    graph.determinize.nodes.toList = graph.subsetKeys.map graph.subsetNode := by
  rw [subsetKeys, List.map_map]
  refine List.map_congr_left fun entry hentry => ?_
  obtain ⟨states, followers⟩ := entry
  have hfollowers : followers = graph.expandSubset states := expansion_of_mem_explore hentry
  subst hfollowers
  rfl

theorem entries_subsetNode (states : NatSet) :
    (graph.subsetNode states).edges.entries = (graph.expandSubset states).map
      fun entry => (entry.1, [graph.subsetKeys.idxOf entry.2]) := by
  refine OrderedMap.entries_ofList ?_
  have hnodup := nodup_expandSubset graph states
  simpa [Function.comp_def] using hnodup

end StateGraph

end GrammarAnalysis

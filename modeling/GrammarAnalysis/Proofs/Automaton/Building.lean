import GrammarAnalysis.Proofs.Automaton.Paths
import Mathlib.Computability.Language
import Mathlib.Order.CompletePartialOrder

/-!
# Graphs that grow

A graph is built by adding states and edges.  Paths stay when it grows, and
languages that account for the edges of every state contain what the paths read.
-/

namespace GrammarAnalysis

theorem mem_addOnce {α : Type} [DecidableEq α] {x y : α} {xs : List α} :
    x ∈ addOnce y xs ↔ x ∈ xs ∨ x = y := by
  rw [addOnce]
  split
  · next hy =>
    refine (or_iff_left_of_imp fun hx => ?_).symm
    rwa [hx]
  · rw [List.mem_append, List.mem_singleton]

namespace StateGraph

variable {σ τ : Type} [DecidableEq σ] {graph graph' graph'' : StateGraph σ τ}
  {n m source target last : NodeId} {symbol t : σ} {tag : τ} {flag : Bool}

/-! ## Adding states and edges -/

omit [DecidableEq σ] in
@[simp] theorem fst_addNode : (graph.addNode tag flag).1 = graph.size := rfl

omit [DecidableEq σ] in
@[simp] theorem size_addNode : (graph.addNode tag flag).2.size = graph.size + 1 :=
  Array.size_push _

omit [DecidableEq σ] in
@[simp] theorem epsilons_addNode : (graph.addNode tag flag).2.epsilons n = graph.epsilons n := by
  simp only [epsilons, addNode, Array.getElem?_push]
  split
  · next hn => simp [hn]
  · rfl

@[simp] theorem targets_addNode :
    (graph.addNode tag flag).2.targets n t = graph.targets n t := by
  simp only [targets, addNode, Array.getElem?_push]
  split
  · next hn => simp [hn]
  · rfl

omit [DecidableEq σ] in
@[simp] theorem isFinal_addNode :
    (graph.addNode tag false).2.isFinal n = graph.isFinal n := by
  simp only [isFinal, addNode, Array.getElem?_push]
  split
  · next hn => simp [hn]
  · rfl

omit [DecidableEq σ] in
@[simp] theorem size_addEpsilon : (graph.addEpsilon source target).size = graph.size :=
  Array.size_modify

omit [DecidableEq σ] in
theorem mem_epsilons_addEpsilon (hsource : source < graph.size) :
    m ∈ (graph.addEpsilon source target).epsilons n ↔
      m ∈ graph.epsilons n ∨ n = source ∧ m = target := by
  simp only [epsilons, addEpsilon, Array.getElem?_modify]
  by_cases hn : source = n
  · subst hn
    have hnode : graph.nodes[source]? = some graph.nodes[source] :=
      Array.getElem?_eq_getElem hsource
    simp [hnode, mem_addOnce]
  · simp [hn, Ne.symm hn]

@[simp] theorem targets_addEpsilon :
    (graph.addEpsilon source target).targets n t = graph.targets n t := by
  simp only [targets, addEpsilon, Array.getElem?_modify]
  split
  · cases graph.nodes[n]? <;> rfl
  · rfl

omit [DecidableEq σ] in
@[simp] theorem isFinal_addEpsilon :
    (graph.addEpsilon source target).isFinal n = graph.isFinal n := by
  simp only [isFinal, addEpsilon, Array.getElem?_modify]
  split
  · cases graph.nodes[n]? <;> rfl
  · rfl

@[simp] theorem size_addEdge : (graph.addEdge source symbol target).size = graph.size :=
  Array.size_modify

theorem mem_targets_addEdge (hsource : source < graph.size) :
    m ∈ (graph.addEdge source symbol target).targets n t ↔
      m ∈ graph.targets n t ∨ n = source ∧ t = symbol ∧ m = target := by
  simp only [targets, addEdge, Array.getElem?_modify]
  by_cases hn : source = n
  · subst hn
    have hnode : graph.nodes[source]? = some graph.nodes[source] :=
      Array.getElem?_eq_getElem hsource
    by_cases ht : t = symbol
    · simp [hnode, ht, mem_addOnce]
    · simp [hnode, ht]
  · simp [hn, Ne.symm hn]

@[simp] theorem epsilons_addEdge :
    (graph.addEdge source symbol target).epsilons n = graph.epsilons n := by
  simp only [epsilons, addEdge, Array.getElem?_modify]
  split
  · cases graph.nodes[n]? <;> rfl
  · rfl

@[simp] theorem isFinal_addEdge :
    (graph.addEdge source symbol target).isFinal n = graph.isFinal n := by
  simp only [isFinal, addEdge, Array.getElem?_modify]
  split
  · cases graph.nodes[n]? <;> rfl
  · rfl

omit [DecidableEq σ] in
@[simp] theorem size_setFinal : (graph.setFinal m flag).size = graph.size :=
  Array.size_modify

omit [DecidableEq σ] in
@[simp] theorem epsilons_setFinal : (graph.setFinal m flag).epsilons n = graph.epsilons n := by
  simp only [epsilons, setFinal, Array.getElem?_modify]
  split
  · cases graph.nodes[n]? <;> rfl
  · rfl

@[simp] theorem targets_setFinal : (graph.setFinal m flag).targets n t = graph.targets n t := by
  simp only [targets, setFinal, Array.getElem?_modify]
  split
  · cases graph.nodes[n]? <;> rfl
  · rfl

omit [DecidableEq σ] in
theorem isFinal_setFinal (hm : m < graph.size) :
    (graph.setFinal m flag).isFinal n = if n = m then flag else graph.isFinal n := by
  simp only [isFinal, setFinal, Array.getElem?_modify]
  by_cases hn : m = n
  · subst hn
    have hnode : graph.nodes[m]? = some graph.nodes[m] := Array.getElem?_eq_getElem hm
    simp [hnode]
  · simp [hn, Ne.symm hn]

/-! ## States without edges -/

/-- Whether no edge leaves the state. -/
structure IsDeadEnd (graph : StateGraph σ τ) (n : NodeId) : Prop where
  no_epsilon : ∀ m, m ∉ graph.epsilons n
  no_target : ∀ t m, m ∉ graph.targets n t

theorem isDeadEnd_of_size_le (hn : graph.size ≤ n) : graph.IsDeadEnd n := by
  have hnode : graph.nodes[n]? = none := Array.getElem?_eq_none hn
  exact ⟨fun m => by simp [epsilons, hnode], fun t m => by simp [targets, hnode]⟩

/-! ## The graph that consists of its root -/

omit [DecidableEq σ] in
@[simp] theorem size_ofRoot : (ofRoot tag flag : StateGraph σ τ).size = 1 := rfl

omit [DecidableEq σ] in
theorem isFinal_ofRoot : (ofRoot tag false : StateGraph σ τ).isFinal n = false := by
  cases n <;> simp [isFinal, ofRoot]

theorem isDeadEnd_ofRoot : (ofRoot tag flag : StateGraph σ τ).IsDeadEnd n := by
  refine ⟨fun m => ?_, fun t m => ?_⟩ <;> cases n <;> simp [epsilons, targets, ofRoot]

theorem isBounded_ofRoot : (ofRoot tag flag : StateGraph σ τ).IsBounded where
  root_lt := Nat.one_pos
  epsilons_lt _ m hm := absurd hm (isDeadEnd_ofRoot.no_epsilon m)
  targets_lt _ t m hm := absurd hm (isDeadEnd_ofRoot.no_target t m)

/-! ## Growth -/

/-- Whether a graph grows into another one, where the new edges leave new states or
states that are touched. -/
structure Grows (graph graph' : StateGraph σ τ) (touched : NodeId → Prop) : Prop where
  size_le : graph.size ≤ graph'.size
  isBounded : graph.IsBounded → graph'.IsBounded
  isFinal_eq : ∀ n, graph'.isFinal n = graph.isFinal n
  epsilons_sub : ∀ n, graph.epsilons n ⊆ graph'.epsilons n
  targets_sub : ∀ n t, graph.targets n t ⊆ graph'.targets n t
  epsilons_old : ∀ n, n < graph.size → ¬touched n → graph'.epsilons n ⊆ graph.epsilons n
  targets_old : ∀ n t, n < graph.size → ¬touched n → graph'.targets n t ⊆ graph.targets n t

variable {touched touched' : NodeId → Prop}

theorem Grows.refl (graph : StateGraph σ τ) : graph.Grows graph touched where
  size_le := Nat.le_refl _
  isBounded := id
  isFinal_eq _ := rfl
  epsilons_sub _ := List.Subset.refl _
  targets_sub _ _ := List.Subset.refl _
  epsilons_old _ _ _ := List.Subset.refl _
  targets_old _ _ _ _ := List.Subset.refl _

theorem Grows.mono (h : graph.Grows graph' touched) (htouched : ∀ n, touched n → touched' n) :
    graph.Grows graph' touched' :=
  { h with
    epsilons_old := fun n hn hsame => h.epsilons_old n hn fun ht => hsame (htouched n ht)
    targets_old := fun n t hn hsame => h.targets_old n t hn fun ht => hsame (htouched n ht) }

theorem Grows.trans (h : graph.Grows graph' touched) (h' : graph'.Grows graph'' touched')
    (htouched : ∀ n, n < graph.size → touched' n → touched n) :
    graph.Grows graph'' touched where
  size_le := h.size_le.trans h'.size_le
  isBounded := h'.isBounded ∘ h.isBounded
  isFinal_eq n := (h'.isFinal_eq n).trans (h.isFinal_eq n)
  epsilons_sub n := List.Subset.trans (h.epsilons_sub n) (h'.epsilons_sub n)
  targets_sub n t := List.Subset.trans (h.targets_sub n t) (h'.targets_sub n t)
  epsilons_old n hn hsame :=
    List.Subset.trans (h'.epsilons_old n (hn.trans_le h.size_le) fun ht => hsame (htouched n hn ht))
      (h.epsilons_old n hn hsame)
  targets_old n t hn hsame :=
    List.Subset.trans
      (h'.targets_old n t (hn.trans_le h.size_le) fun ht => hsame (htouched n hn ht))
      (h.targets_old n t hn hsame)

theorem IsBounded.addNode (h : graph.IsBounded) : (graph.addNode tag flag).2.IsBounded := by
  refine ⟨?_, fun n m hm => ?_, fun n t m hm => ?_⟩ <;> rw [size_addNode]
  · exact h.root_lt.trans (Nat.lt_succ_self _)
  · rw [epsilons_addNode] at hm
    exact (h.epsilons_lt n m hm).trans (Nat.lt_succ_self _)
  · rw [targets_addNode] at hm
    exact (h.targets_lt n t m hm).trans (Nat.lt_succ_self _)

theorem grows_addNode (graph : StateGraph σ τ) (tag : τ) :
    graph.Grows (graph.addNode tag false).2 touched where
  size_le := by simp
  isBounded h := h.addNode
  isFinal_eq n := isFinal_addNode
  epsilons_sub n := by simp
  targets_sub n t := by simp
  epsilons_old n _ _ := by simp
  targets_old n t _ _ := by simp

theorem grows_addEpsilon (hsource : source < graph.size) (htarget : target < graph.size) :
    graph.Grows (graph.addEpsilon source target) (· = source) where
  size_le := by simp
  isBounded h := by
    refine ⟨?_, fun n m hm => ?_, fun n t m hm => ?_⟩ <;> rw [size_addEpsilon]
    · exact h.root_lt
    · rcases (mem_epsilons_addEpsilon hsource).mp hm with hm | ⟨-, rfl⟩
      · exact h.epsilons_lt n m hm
      · exact htarget
    · rw [targets_addEpsilon] at hm
      exact h.targets_lt n t m hm
  isFinal_eq n := isFinal_addEpsilon
  epsilons_sub n _ hm := (mem_epsilons_addEpsilon hsource).mpr (Or.inl hm)
  targets_sub n t := by simp
  epsilons_old n _ hn _ hm :=
    ((mem_epsilons_addEpsilon hsource).mp hm).resolve_right fun h => hn h.1
  targets_old n t _ _ := by simp

theorem grows_addEdge (hsource : source < graph.size) (htarget : target < graph.size) :
    graph.Grows (graph.addEdge source symbol target) (· = source) where
  size_le := by simp
  isBounded h := by
    refine ⟨?_, fun n m hm => ?_, fun n t m hm => ?_⟩ <;> rw [size_addEdge]
    · exact h.root_lt
    · rw [epsilons_addEdge] at hm
      exact h.epsilons_lt n m hm
    · rcases (mem_targets_addEdge hsource).mp hm with hm | ⟨-, -, rfl⟩
      · exact h.targets_lt n t m hm
      · exact htarget
  isFinal_eq n := isFinal_addEdge
  epsilons_sub n := by simp
  targets_sub n t _ hm := (mem_targets_addEdge hsource).mpr (Or.inl hm)
  epsilons_old n _ _ := by simp
  targets_old n t _ hn _ hm :=
    ((mem_targets_addEdge hsource).mp hm).resolve_right fun h => hn h.1

/-- A path stays if no edge gets lost. -/
theorem Path.of_subset (hepsilons : ∀ n, graph.epsilons n ⊆ graph'.epsilons n)
    (htargets : ∀ n t, graph.targets n t ⊆ graph'.targets n t) {word : List σ}
    (hpath : graph.Path n word last) : graph'.Path n word last := by
  induction hpath with
  | refl => exact Path.refl _
  | epsilon edge _ ih => exact Path.epsilon (hepsilons _ edge) ih
  | read edge _ ih => exact Path.read (htargets _ _ edge) ih

theorem Path.grow (h : graph.Grows graph' touched) {word : List σ}
    (hpath : graph.Path n word last) : graph'.Path n word last :=
  hpath.of_subset h.epsilons_sub h.targets_sub

theorem path_setFinal_iff {word : List σ} :
    (graph.setFinal m flag).Path n word last ↔ graph.Path n word last :=
  ⟨Path.of_subset (by simp) (by simp), Path.of_subset (by simp) (by simp)⟩

theorem IsBounded.setFinal (h : graph.IsBounded) : (graph.setFinal m flag).IsBounded := by
  refine ⟨?_, fun n m hm => ?_, fun n t m hm => ?_⟩ <;> rw [size_setFinal]
  · exact h.root_lt
  · rw [epsilons_setFinal] at hm
    exact h.epsilons_lt n m hm
  · rw [targets_setFinal] at hm
    exact h.targets_lt n t m hm

theorem IsDeadEnd.grow (hdead : graph.IsDeadEnd n) (h : graph.Grows graph' touched)
    (hn : n < graph.size) (hsame : ¬touched n) : graph'.IsDeadEnd n :=
  ⟨fun m hm => hdead.no_epsilon m (h.epsilons_old n hn hsame hm),
    fun t m hm => hdead.no_target t m (h.targets_old n t hn hsame hm)⟩

/-! ## Languages of the states -/

/-- Whether languages of the states account for the edges of a state: what is read
after an edge can be read at the state, after what the edge reads. -/
structure Accounts (graph : StateGraph σ τ) (L : NodeId → Language σ) (n : NodeId) : Prop where
  epsilon_le : ∀ m ∈ graph.epsilons n, L m ≤ L n
  target_le : ∀ t, ∀ m ∈ graph.targets n t, {[t]} * L m ≤ L n

variable {L L' : NodeId → Language σ}

/-- If the languages account for all edges, they contain what the paths read. -/
theorem append_mem_of_path (h : ∀ n, graph.Accounts L n) {word rest : List σ}
    (hpath : graph.Path n word last) (hrest : rest ∈ L last) : word ++ rest ∈ L n := by
  induction hpath with
  | refl => exact hrest
  | epsilon edge _ ih => exact (h _).epsilon_le _ edge (ih hrest)
  | read edge _ ih =>
      exact (h _).target_le _ _ edge ⟨_, Set.mem_singleton _, _, ih hrest, rfl⟩

theorem IsDeadEnd.accounts (h : graph.IsDeadEnd n) : graph.Accounts L n :=
  ⟨fun m hm => absurd hm (h.no_epsilon m), fun t m hm => absurd hm (h.no_target t m)⟩

/-- What accounts for an old state that is not touched does so after the growth. -/
theorem Accounts.grow (hL : graph.Accounts L n) (h : graph.Grows graph' touched)
    (hb : graph.IsBounded) (hsame : ∀ m, m < graph.size → L' m = L m) (hn : n < graph.size)
    (huntouched : ¬touched n) : graph'.Accounts L' n where
  epsilon_le m hm := by
    have hm' := h.epsilons_old n hn huntouched hm
    rw [hsame n hn, hsame m (hb.epsilons_lt n m hm')]
    exact hL.epsilon_le m hm'
  target_le t m hm := by
    have hm' := h.targets_old n t hn huntouched hm
    rw [hsame n hn, hsame m (hb.targets_lt n t m hm')]
    exact hL.target_le t m hm'

theorem Accounts.addEpsilon (hL : graph.Accounts L n) (hsource : source < graph.size)
    (hedge : n = source → L target ≤ L n) : (graph.addEpsilon source target).Accounts L n where
  epsilon_le m hm := by
    rcases (mem_epsilons_addEpsilon hsource).mp hm with hm | ⟨rfl, rfl⟩
    · exact hL.epsilon_le m hm
    · exact hedge rfl
  target_le t m hm := by
    rw [targets_addEpsilon] at hm
    exact hL.target_le t m hm

theorem Accounts.addEdge (hL : graph.Accounts L n) (hsource : source < graph.size)
    (hedge : n = source → {[symbol]} * L target ≤ L n) :
    (graph.addEdge source symbol target).Accounts L n where
  epsilon_le m hm := by
    rw [epsilons_addEdge] at hm
    exact hL.epsilon_le m hm
  target_le t m hm := by
    rcases (mem_targets_addEdge hsource).mp hm with hm | ⟨rfl, rfl, rfl⟩
    · exact hL.target_le t m hm
    · exact hedge rfl

/-! ## Several epsilon edges -/

/-- Adds the listed epsilon edges. -/
def addEpsilons (graph : StateGraph σ τ) (edges : List (NodeId × NodeId)) : StateGraph σ τ :=
  edges.foldl (fun graph edge => graph.addEpsilon edge.1 edge.2) graph

variable {edges : List (NodeId × NodeId)}

omit [DecidableEq σ] in
theorem mem_epsilons_addEpsilons (h : ∀ edge ∈ edges, edge.1 < graph.size ∧ edge.2 < graph.size) :
    m ∈ (graph.addEpsilons edges).epsilons n ↔ m ∈ graph.epsilons n ∨ (n, m) ∈ edges := by
  induction edges generalizing graph with
  | nil => simp [addEpsilons]
  | cons edge rest ih =>
      obtain ⟨hedge, hrest⟩ := List.forall_mem_cons.mp h
      have hadded := @ih (graph.addEpsilon edge.1 edge.2) (by simpa using hrest)
      rw [addEpsilons] at hadded ⊢
      rw [List.foldl_cons, hadded, mem_epsilons_addEpsilon hedge.1, List.mem_cons, or_assoc,
        Prod.ext_iff]

theorem grows_addEpsilons (h : ∀ edge ∈ edges, edge.1 < graph.size ∧ edge.2 < graph.size) :
    graph.Grows (graph.addEpsilons edges) fun n => n ∈ edges.map Prod.fst := by
  induction edges generalizing graph with
  | nil => exact Grows.refl graph
  | cons edge rest ih =>
      obtain ⟨hedge, hrest⟩ := List.forall_mem_cons.mp h
      have hadded := @ih (graph.addEpsilon edge.1 edge.2) (by simpa using hrest)
      refine ((grows_addEpsilon hedge.1 hedge.2).mono ?_).trans hadded ?_
      · rintro n rfl
        exact List.mem_cons_self
      · exact fun n _ hn => List.mem_cons_of_mem _ hn

theorem Accounts.addEpsilons (hL : graph.Accounts L n)
    (hends : ∀ edge ∈ edges, edge.1 < graph.size ∧ edge.2 < graph.size)
    (h : ∀ m, (n, m) ∈ edges → L m ≤ L n) : (graph.addEpsilons edges).Accounts L n := by
  induction edges generalizing graph with
  | nil => exact hL
  | cons edge rest ih =>
      obtain ⟨hedge, hrest⟩ := List.forall_mem_cons.mp hends
      refine ih (hL.addEpsilon hedge.1 ?_) (by simpa using hrest) fun m hm =>
        h m (List.mem_cons_of_mem _ hm)
      rintro rfl
      exact h edge.2 List.mem_cons_self

end StateGraph

end GrammarAnalysis

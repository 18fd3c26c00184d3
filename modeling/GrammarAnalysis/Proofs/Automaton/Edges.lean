import GrammarAnalysis.Proofs.Automaton.Building
import GrammarAnalysis.Proofs.Automaton.Recognition

/-!
# Automata by the edges they are given

An automaton is made by adding edges one after the other.  The list of these edges
determines the paths, whatever the maps are in which the automaton keeps them: no edge
gets lost, and none appears that has not been added.
-/

namespace GrammarAnalysis

/-- An edge between two states.  An epsilon edge has no label. -/
structure Link (σ : Type) where
  source : Nat
  label : Option σ
  target : Nat

/-- The walks along listed edges, by their ends and the word they read. -/
inductive Link.Walk {σ : Type} (links : List (Link σ)) : Nat → List σ → Nat → Prop
  | refl (n : Nat) : Walk links n [] n
  | epsilon {n middle last : Nat} {word : List σ} (edge : ⟨n, none, middle⟩ ∈ links)
      (rest : Walk links middle word last) : Walk links n word last
  | read {n middle last : Nat} {symbol : σ} {word : List σ}
      (edge : ⟨n, some symbol, middle⟩ ∈ links) (rest : Walk links middle word last) :
      Walk links n (symbol :: word) last

/-! ## State graphs -/

namespace StateGraph

variable {σ τ : Type} [DecidableEq σ] {graph : StateGraph σ τ} {links : List (Link σ)}
  {n m last : NodeId} {symbol : σ} {word : List σ}

/-- Whether a graph is made from its root by adding states, by adding the listed edges, each
between states that are there already, and by setting final flags of such states. -/
inductive IsBuilt : StateGraph σ τ → List (Link σ) → Prop
  | ofRoot (tag : τ) (flag : Bool) : IsBuilt (ofRoot tag flag) []
  | addNode {graph : StateGraph σ τ} {links : List (Link σ)} (tag : τ) (flag : Bool)
      (rest : IsBuilt graph links) : IsBuilt (graph.addNode tag flag).2 links
  | addEdge {graph : StateGraph σ τ} {links : List (Link σ)} {source target : NodeId} (symbol : σ)
      (source_lt : source < graph.size) (target_lt : target < graph.size)
      (rest : IsBuilt graph links) :
      IsBuilt (graph.addEdge source symbol target) (links ++ [⟨source, some symbol, target⟩])
  | addEpsilon {graph : StateGraph σ τ} {links : List (Link σ)} {source target : NodeId}
      (source_lt : source < graph.size) (target_lt : target < graph.size)
      (rest : IsBuilt graph links) :
      IsBuilt (graph.addEpsilon source target) (links ++ [⟨source, none, target⟩])
  | setFinal {graph : StateGraph σ τ} {links : List (Link σ)} {n : NodeId} (flag : Bool)
      (lt_size : n < graph.size) (rest : IsBuilt graph links) :
      IsBuilt (graph.setFinal n flag) links

namespace IsBuilt

theorem isBounded (h : graph.IsBuilt links) : graph.IsBounded := by
  induction h with
  | ofRoot => exact isBounded_ofRoot
  | addNode _ _ _ ih => exact ih.addNode
  | addEdge _ source_lt target_lt _ ih => exact (grows_addEdge source_lt target_lt).isBounded ih
  | addEpsilon source_lt target_lt _ ih => exact (grows_addEpsilon source_lt target_lt).isBounded ih
  | setFinal _ _ _ ih => exact ih.setFinal

theorem mem_epsilons_iff (h : graph.IsBuilt links) :
    m ∈ graph.epsilons n ↔ ⟨n, none, m⟩ ∈ links := by
  induction h with
  | ofRoot => simp [isDeadEnd_ofRoot.no_epsilon]
  | addNode _ _ _ ih => rw [epsilons_addNode, ih]
  | addEdge _ _ _ _ ih => simp [ih]
  | addEpsilon source_lt _ _ ih => simp [mem_epsilons_addEpsilon source_lt, ih]
  | setFinal _ _ _ ih => rw [epsilons_setFinal, ih]

theorem mem_targets_iff (h : graph.IsBuilt links) :
    m ∈ graph.targets n symbol ↔ ⟨n, some symbol, m⟩ ∈ links := by
  induction h with
  | ofRoot => simp [isDeadEnd_ofRoot.no_target]
  | addNode _ _ _ ih => rw [targets_addNode, ih]
  | addEdge _ source_lt _ _ ih => simp [mem_targets_addEdge source_lt, ih]
  | addEpsilon _ _ _ ih => simp [ih]
  | setFinal _ _ _ ih => rw [targets_setFinal, ih]

/-- The paths of a graph are the walks along the edges that have been added. -/
theorem path_iff (h : graph.IsBuilt links) :
    graph.Path n word last ↔ Link.Walk links n word last := by
  constructor
  · intro hpath
    induction hpath with
    | refl => exact .refl _
    | epsilon edge _ ih => exact .epsilon (h.mem_epsilons_iff.mp edge) ih
    | read edge _ ih => exact .read (h.mem_targets_iff.mp edge) ih
  · intro hwalk
    induction hwalk with
    | refl => exact .refl _
    | epsilon edge _ ih => exact .epsilon (h.mem_epsilons_iff.mpr edge) ih
    | read edge _ ih => exact .read (h.mem_targets_iff.mpr edge) ih

end IsBuilt

end StateGraph

/-! ## Nondeterministic automata over terminals -/

namespace Nfa

variable {nfa : Nfa} {links : List (Link TerminalId)} {finals : List Nat} {n m last : Nat}
  {t : TerminalId} {word : List TerminalId}

theorem mem_targets_addTransition {edge : Transition} :
    m ∈ (nfa.addTransition edge).targets n t ↔ m ∈ nfa.targets n t ∨ ⟨n, t, m⟩ = edge := by
  obtain ⟨source, u, target⟩ := edge
  rw [targets, targets, addTransition, OrderedMap.get?_upsert, Transition.mk.injEq]
  split
  · next hkey =>
    obtain ⟨rfl, rfl⟩ := Prod.mk.inj hkey
    simp [or_comm]
  · next hkey =>
    apply (or_iff_left_of_imp ?_).symm
    rintro ⟨hn, ht, -⟩
    exact absurd (by rw [hn, ht]) hkey

@[simp] theorem epsilonTargets_addTransition {edge : Transition} :
    (nfa.addTransition edge).epsilonTargets n = nfa.epsilonTargets n := rfl

@[simp] theorem targets_addEpsilon {source target : Nat} :
    (nfa.addEpsilon source target).targets n t = nfa.targets n t := rfl

theorem mem_epsilonTargets_addEpsilon {source target : Nat} :
    m ∈ (nfa.addEpsilon source target).epsilonTargets n ↔
      m ∈ nfa.epsilonTargets n ∨ n = source ∧ m = target := by
  rw [epsilonTargets, addEpsilon, OrderedMap.get?_upsert]
  by_cases hkey : n = source
  · subst hkey
    simp [epsilonTargets, or_comm]
  · rw [if_neg hkey]
    exact (or_iff_left fun h => hkey h.1).symm

/-- Whether an automaton is made by adding the listed edges and final states, in any order and
between any numbers. -/
inductive IsBuilt : Nfa → List (Link TerminalId) → List Nat → Prop
  | empty (states start : Nat) : IsBuilt (Nfa.empty states start) [] []
  | addTransition {nfa : Nfa} {links : List (Link TerminalId)} {finals : List Nat}
      (edge : Transition) (rest : IsBuilt nfa links finals) :
      IsBuilt (nfa.addTransition edge) (links ++ [⟨edge.source, some edge.terminal, edge.target⟩])
        finals
  | addEpsilon {nfa : Nfa} {links : List (Link TerminalId)} {finals : List Nat}
      (source target : Nat) (rest : IsBuilt nfa links finals) :
      IsBuilt (nfa.addEpsilon source target) (links ++ [⟨source, none, target⟩]) finals
  | setFinal {nfa : Nfa} {links : List (Link TerminalId)} {finals : List Nat} (state : Nat)
      (rest : IsBuilt nfa links finals) : IsBuilt (nfa.setFinal state) links (finals ++ [state])

namespace IsBuilt

theorem mem_epsilonTargets_iff (h : nfa.IsBuilt links finals) :
    m ∈ nfa.epsilonTargets n ↔ ⟨n, none, m⟩ ∈ links := by
  induction h with
  | empty => simp [epsilonTargets, Nfa.empty]
  | addTransition edge _ ih => simp [ih]
  | addEpsilon source target _ ih => simp [mem_epsilonTargets_addEpsilon, ih]
  | setFinal state _ ih => exact ih

theorem mem_targets_iff (h : nfa.IsBuilt links finals) :
    m ∈ nfa.targets n t ↔ ⟨n, some t, m⟩ ∈ links := by
  induction h with
  | empty => simp [targets, Nfa.empty]
  | addTransition edge _ ih =>
      cases edge
      simp [mem_targets_addTransition, ih]
  | addEpsilon source target _ ih => simp [ih]
  | setFinal state _ ih => exact ih

theorem mem_finals_iff (h : nfa.IsBuilt links finals) : n ∈ nfa.finals ↔ n ∈ finals := by
  induction h with
  | empty => simp [Nfa.empty]
  | addTransition edge _ ih => exact ih
  | addEpsilon source target _ ih => exact ih
  | setFinal state _ ih => simp [Nfa.setFinal, ih, or_comm]

theorem path_iff (h : nfa.IsBuilt links finals) :
    nfa.Path n word last ↔ Link.Walk links n word last := by
  constructor
  · intro hpath
    induction hpath with
    | refl => exact .refl _
    | epsilon edge _ ih => exact .epsilon (h.mem_epsilonTargets_iff.mp edge) ih
    | read edge _ ih => exact .read (h.mem_targets_iff.mp edge) ih
  · intro hwalk
    induction hwalk with
    | refl => exact .refl _
    | epsilon edge _ ih => exact .epsilon (h.mem_epsilonTargets_iff.mpr edge) ih
    | read edge _ ih => exact .read (h.mem_targets_iff.mpr edge) ih

/-- The words of an automaton are read by the walks along the added edges from its start to an
added final state. -/
theorem hasWord_iff (h : nfa.IsBuilt links finals) :
    nfa.HasWord word ↔ ∃ last ∈ finals, Link.Walk links nfa.start word last := by
  simp only [HasWord, h.mem_finals_iff, h.path_iff]

end IsBuilt

end Nfa

end GrammarAnalysis

/-!
# Exploring a graph in order of discovery

The states of every constructed automaton are numbered in the order in which
they are discovered: the states waiting to be expanded form a queue, the first
one is expanded, and those of its targets that have not been met before join
the end of the queue.  `explore` lists the expanded states in that order, each
with its expansion, so a state's number is its position in the list.
-/

namespace GrammarAnalysis

variable {κ ε : Type} [DecidableEq κ]

/-- The members of a list that are not in `known`, each once, in order of first occurrence. -/
def unseen (known : List κ) : List κ → List κ
  | [] => []
  | k :: rest => if k ∈ known then unseen known rest else k :: unseen (k :: known) rest

/-- The members of a list, each once, in order of first occurrence. -/
def distinct (ks : List κ) : List κ := unseen [] ks

theorem mem_unseen {k : κ} {known ks : List κ} :
    k ∈ unseen known ks ↔ k ∈ ks ∧ k ∉ known := by
  induction ks generalizing known with
  | nil => simp [unseen]
  | cons j rest ih =>
    simp only [unseen]
    split
    · next hj =>
      rw [ih, List.mem_cons]
      constructor
      · rintro ⟨h1, h2⟩
        exact ⟨.inr h1, h2⟩
      · rintro ⟨rfl | h1, h2⟩
        · exact absurd hj h2
        · exact ⟨h1, h2⟩
    · next hj =>
      rw [List.mem_cons, ih, List.mem_cons, List.mem_cons]
      constructor
      · rintro (rfl | ⟨h1, h2⟩)
        · exact ⟨.inl rfl, hj⟩
        · exact ⟨.inr h1, fun h => h2 (.inr h)⟩
      · rintro ⟨rfl | h1, h2⟩
        · exact .inl rfl
        · by_cases hk : k = j
          · exact .inl hk
          · exact .inr ⟨h1, fun h => h.elim hk h2⟩

theorem nodup_unseen (known ks : List κ) : (unseen known ks).Nodup := by
  induction ks generalizing known with
  | nil => simp [unseen]
  | cons j rest ih =>
    simp only [unseen]
    split
    · exact ih known
    · refine List.nodup_cons.2 ⟨?_, ih _⟩
      simp [mem_unseen]

@[simp] theorem mem_distinct {k : κ} {ks : List κ} : k ∈ distinct ks ↔ k ∈ ks := by
  simp [distinct, mem_unseen]

theorem nodup_distinct (ks : List κ) : (distinct ks).Nodup := nodup_unseen [] ks

/-- Expands the pending states in turn, with at most `bound` expansions. -/
def exploreFrom (expand : κ → ε) (targets : ε → List κ) :
    Nat → List (κ × ε) → List κ → List (κ × ε)
  | 0, explored, _ => explored
  | _ + 1, explored, [] => explored
  | bound + 1, explored, k :: pending =>
    let expansion := expand k
    let known := explored.map Prod.fst ++ k :: pending
    exploreFrom expand targets bound (explored ++ [(k, expansion)])
      (pending ++ unseen known (targets expansion))

/-- The states reachable from `roots`, each with its expansion, in order of discovery. -/
def explore (expand : κ → ε) (targets : ε → List κ) (bound : Nat) (roots : List κ) :
    List (κ × ε) :=
  exploreFrom expand targets bound [] (distinct roots)

/-- The states reachable from `roots` along `successors`, in order of discovery. -/
def reachable (successors : κ → List κ) (bound : Nat) (roots : List κ) : List κ :=
  (explore successors id bound roots).map Prod.fst

end GrammarAnalysis

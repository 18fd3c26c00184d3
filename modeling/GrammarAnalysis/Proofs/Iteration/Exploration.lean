import Mathlib.Data.Finset.Powerset
import Mathlib.Data.List.Perm.Subperm
import Mathlib.Logic.Relation
import GrammarAnalysis.Iteration.Exploration

/-!
# Exploration is exact

An exploration whose bound is not below the number of states it can meet lists
every state that is reachable from its roots, and no other one, each once.  Its
list is therefore closed: the targets of a listed state are listed as well.
Such an exploration ends by itself, and the bound says only that it does.
-/

namespace GrammarAnalysis

variable {κ ε : Type} [DecidableEq κ]

/-- Whether a predicate holds of no more than `bound` values. -/
def AtMost (bound : Nat) (P : κ → Prop) : Prop :=
  ∀ ks : List κ, ks.Nodup → (∀ k ∈ ks, P k) → ks.length ≤ bound

omit [DecidableEq κ] in
/-- Values that are listed are no more than the list is long. -/
theorem atMost_of_mem {P : κ → Prop} {listed : List κ} (h : ∀ k, P k → k ∈ listed) {bound : Nat}
    (hlength : listed.length ≤ bound) : AtMost bound P := by
  intro ks hnodup hP
  have hsub : ks ⊆ listed := fun k hk => h k (hP k hk)
  exact (List.subperm_of_subset hnodup hsub).length_le.trans hlength

omit [DecidableEq κ] in
/-- Values told apart by the subsets of a finite set are no more than the subsets. -/
theorem atMost_of_subsets {α : Type} [DecidableEq α] {P : κ → Prop} {bound : Nat}
    (code : κ → Finset α) (all : Finset α) (hsubset : ∀ k, P k → code k ⊆ all)
    (hcode : ∀ k j, P k → P j → code k = code j → k = j) (hbound : 2 ^ all.card ≤ bound) :
    AtMost bound P := by
  intro ks hnodup hP
  have hcodes : (ks.map code).Nodup :=
    List.Nodup.map_on (fun k hk j hj => hcode k j (hP k hk) (hP j hj)) hnodup
  have hsub : (ks.map code).toFinset ⊆ all.powerset := by
    intro s hs
    obtain ⟨k, hk, rfl⟩ := List.mem_map.mp (List.mem_toFinset.mp hs)
    exact Finset.mem_powerset.mpr (hsubset k (hP k hk))
  calc
    ks.length = (ks.map code).toFinset.card := by
      rw [List.toFinset_card_of_nodup hcodes, List.length_map]
    _ ≤ all.powerset.card := Finset.card_le_card hsub
    _ = 2 ^ all.card := Finset.card_powerset all
    _ ≤ bound := hbound

/-! ## First occurrences -/

/-- What is new depends on the members of the known list only. -/
theorem unseen_congr {known known' : List κ} (h : ∀ k, k ∈ known ↔ k ∈ known') (ks : List κ) :
    unseen known ks = unseen known' ks := by
  induction ks generalizing known known' with
  | nil => rfl
  | cons k ks ih =>
      have hcons : ∀ j, j ∈ k :: known ↔ j ∈ k :: known' := fun j => by
        rw [List.mem_cons, List.mem_cons, h j]
      simp only [unseen, h k, ih h, ih hcons]

/-- What is new in the second list is new after what is new in the first one. -/
theorem unseen_append (known ks ks' : List κ) :
    unseen known (ks ++ ks') = unseen known ks ++ unseen (known ++ unseen known ks) ks' := by
  induction ks generalizing known with
  | nil => simp [unseen]
  | cons k ks ih =>
      rw [List.cons_append, unseen, unseen]
      split
      · exact ih known
      · have hsame : ∀ j, j ∈ (k :: known) ++ unseen (k :: known) ks ↔
            j ∈ known ++ k :: unseen (k :: known) ks := fun j => by
          simp only [List.mem_append, List.mem_cons]
          tauto
        rw [ih, unseen_congr hsame, List.cons_append]

/-! ## Expanding states -/

/-- One state leads to another if the latter is a target of its expansion. -/
def Leads (expand : κ → ε) (targets : ε → List κ) (k j : κ) : Prop :=
  j ∈ targets (expand k)

variable {expand : κ → ε} {targets : ε → List κ}

/-- The states waiting after one expansion are new, and stay distinct. -/
theorem nodup_expand {explored pending : List κ} {k : κ} (found : List κ)
    (h : (explored ++ k :: pending).Nodup) :
    ((explored ++ [k]) ++ (pending ++ unseen (explored ++ k :: pending) found)).Nodup := by
  have hsplit : (explored ++ [k]) ++ (pending ++ unseen (explored ++ k :: pending) found) =
      (explored ++ k :: pending) ++ unseen (explored ++ k :: pending) found := by simp
  rw [hsplit]
  refine List.nodup_append.mpr ⟨h, nodup_unseen _ _, ?_⟩
  intro a ha b hb hab
  subst hab
  exact (mem_unseen.mp hb).2 ha

theorem prefix_exploreFrom (bound : Nat) (explored : List (κ × ε)) (pending : List κ) :
    explored <+: exploreFrom expand targets bound explored pending := by
  induction bound generalizing explored pending with
  | zero => simp [exploreFrom]
  | succ bound ih =>
      cases pending with
      | nil => simp [exploreFrom]
      | cons k pending =>
          rw [exploreFrom]
          exact (List.prefix_append explored _).trans (ih _ _)

theorem nodup_exploreFrom (bound : Nat) {explored : List (κ × ε)} {pending : List κ}
    (h : (explored.map Prod.fst ++ pending).Nodup) :
    ((exploreFrom expand targets bound explored pending).map Prod.fst).Nodup := by
  induction bound generalizing explored pending with
  | zero => exact (List.nodup_append.mp h).1
  | succ bound ih =>
      cases pending with
      | nil => exact (List.nodup_append.mp h).1
      | cons k pending =>
          rw [exploreFrom]
          refine ih ?_
          simpa using nodup_expand (targets (expand k)) h

theorem expansion_of_mem_exploreFrom (bound : Nat) {explored : List (κ × ε)} {pending : List κ}
    (h : ∀ entry ∈ explored, entry.2 = expand entry.1) :
    ∀ entry ∈ exploreFrom expand targets bound explored pending, entry.2 = expand entry.1 := by
  induction bound generalizing explored pending with
  | zero => exact h
  | succ bound ih =>
      cases pending with
      | nil => exact h
      | cons k pending =>
          rw [exploreFrom]
          refine ih fun entry hentry => ?_
          rcases List.mem_append.mp hentry with hentry | hentry
          · exact h entry hentry
          · rw [List.mem_singleton.mp hentry]

/-- Whatever is listed was listed before or is reachable from a waiting state. -/
theorem reachable_of_mem_exploreFrom (bound : Nat) {explored : List (κ × ε)} {pending : List κ}
    {k : κ} (h : k ∈ (exploreFrom expand targets bound explored pending).map Prod.fst) :
    k ∈ explored.map Prod.fst ∨
      ∃ r ∈ pending, Relation.ReflTransGen (Leads expand targets) r k := by
  induction bound generalizing explored pending with
  | zero => exact Or.inl h
  | succ bound ih =>
      cases pending with
      | nil => exact Or.inl h
      | cons j pending =>
          rw [exploreFrom] at h
          rcases ih h with hk | ⟨r, hr, hrk⟩
          · rw [List.map_append, List.mem_append] at hk
            rcases hk with hk | hk
            · exact Or.inl hk
            · refine Or.inr ⟨j, by simp, ?_⟩
              rw [List.map_singleton, List.mem_singleton] at hk
              rw [hk]
          · right
            rcases List.mem_append.mp hr with hr | hr
            · exact ⟨r, List.mem_cons_of_mem _ hr, hrk⟩
            · exact ⟨j, by simp, hrk.head (mem_unseen.mp hr).1⟩

/-! ## Explorations without a bound -/

/-- Expanding the waiting states in turn, until none is left, gives the last list. -/
inductive Explores (expand : κ → ε) (targets : ε → List κ) :
    List (κ × ε) → List κ → List (κ × ε) → Prop
  | done (explored : List (κ × ε)) : Explores expand targets explored [] explored
  | next {explored last : List (κ × ε)} {k : κ} {pending : List κ}
      (rest : Explores expand targets (explored ++ [(k, expand k)])
        (pending ++ unseen (explored.map Prod.fst ++ k :: pending) (targets (expand k))) last) :
      Explores expand targets explored (k :: pending) last

theorem Explores.explored_prefix {explored last : List (κ × ε)} {pending : List κ}
    (h : Explores expand targets explored pending last) : explored <+: last := by
  induction h with
  | done explored => exact List.prefix_refl explored
  | next _ ih => exact (List.prefix_append _ _).trans ih

/-- What is expanded and what waits comes first in the last list. -/
theorem Explores.waiting_isPrefix {explored last : List (κ × ε)} {pending : List κ}
    (h : Explores expand targets explored pending last) :
    explored.map Prod.fst ++ pending <+: last.map Prod.fst := by
  induction h with
  | done explored => simp
  | @next explored last k pending _ ih =>
      refine List.IsPrefix.trans ?_ ih
      rw [List.map_append, List.map_singleton, List.append_assoc, List.singleton_append,
        ← List.cons_append, ← List.append_assoc]
      exact List.prefix_append _ _

/-- Every waiting state is listed, and so are the targets of every state that is expanded. -/
theorem Explores.closed {explored last : List (κ × ε)} {pending : List κ}
    (h : Explores expand targets explored pending last) :
    (∀ k ∈ pending, k ∈ last.map Prod.fst) ∧
      ∀ k ∈ last.map Prod.fst, k ∉ explored.map Prod.fst →
        ∀ j, Leads expand targets k j → j ∈ last.map Prod.fst := by
  induction h with
  | done explored => exact ⟨by simp, fun k hk hnew => absurd hk hnew⟩
  | @next explored last k pending rest ih =>
      obtain ⟨hwaiting, htargets⟩ := ih
      have hlisted : ∀ j ∈ (explored ++ [(k, expand k)]).map Prod.fst, j ∈ last.map Prod.fst :=
        fun j hj => (rest.explored_prefix.map Prod.fst).subset hj
      refine ⟨?_, ?_⟩
      · intro j hj
        rcases List.mem_cons.mp hj with rfl | hj
        · exact hlisted j (by simp)
        · exact hwaiting j (List.mem_append_left _ hj)
      · -- the targets of `k` are listed now or wait, those of later states are listed later
        intro i hi hnew j hij
        by_cases hik : i = k
        · subst hik
          by_cases hknown : j ∈ explored.map Prod.fst ++ i :: pending
          · rw [List.mem_append, List.mem_cons] at hknown
            rcases hknown with hj | rfl | hj
            · exact hlisted j (by rw [List.map_append]; exact List.mem_append_left _ hj)
            · exact hlisted j (by simp)
            · exact hwaiting j (List.mem_append_left _ hj)
          · exact hwaiting j (List.mem_append_right _ (mem_unseen.mpr ⟨hij, hknown⟩))
        · refine htargets i hi ?_ j hij
          rw [List.map_append, List.mem_append, not_or]
          exact ⟨hnew, by simpa using hik⟩

/-- With enough expansions the exploration ends by itself: no state is left waiting. -/
theorem explores_exploreFrom {P : κ → Prop}
    (hclosed : ∀ k, P k → ∀ j, Leads expand targets k j → P j) (bound : Nat)
    {explored : List (κ × ε)} {pending : List κ}
    (hnodup : (explored.map Prod.fst ++ pending).Nodup)
    (hP : ∀ k ∈ explored.map Prod.fst ++ pending, P k)
    (hlimit : AtMost (explored.length + bound) P) :
    Explores expand targets explored pending
      (exploreFrom expand targets bound explored pending) := by
  induction bound generalizing explored pending with
  | zero =>
      have hlength := hlimit _ hnodup hP
      have hpending : pending = [] := by
        apply List.eq_nil_of_length_eq_zero
        simp only [List.length_append, List.length_map] at hlength
        omega
      subst hpending
      exact .done explored
  | succ bound ih =>
      cases pending with
      | nil => exact .done explored
      | cons k pending =>
          have hk : P k := hP k (by simp)
          have hfound : ∀ j ∈ (explored ++ [(k, expand k)]).map Prod.fst ++ (pending ++
              unseen (explored.map Prod.fst ++ k :: pending) (targets (expand k))), P j := by
            intro j hj
            rw [List.map_append, List.map_singleton, List.append_assoc, List.singleton_append,
              ← List.cons_append, ← List.append_assoc] at hj
            rcases List.mem_append.mp hj with hj | hj
            · exact hP j hj
            · exact hclosed k hk j (mem_unseen.mp hj).1
          have hfew : AtMost ((explored ++ [(k, expand k)]).length + bound) P := by
            intro ks hks hPks
            have hlength := hlimit ks hks hPks
            simp only [List.length_append, List.length_singleton]
            omega
          exact .next (ih (by simpa using nodup_expand (targets (expand k)) hnodup) hfound hfew)

/-! ## Explorations from roots -/

theorem expansion_of_mem_explore {bound : Nat} {roots : List κ} {entry : κ × ε}
    (h : entry ∈ explore expand targets bound roots) : entry.2 = expand entry.1 :=
  expansion_of_mem_exploreFrom bound (by simp) entry h

theorem nodup_explore (bound : Nat) (roots : List κ) :
    ((explore expand targets bound roots).map Prod.fst).Nodup :=
  nodup_exploreFrom bound (by simpa using nodup_distinct roots)

/-- An exploration from roots ends by itself if its bound is not below the number of states. -/
theorem explores_explore {P : κ → Prop} {bound : Nat} {roots : List κ}
    (hroots : ∀ r ∈ roots, P r) (hclosed : ∀ k, P k → ∀ j, Leads expand targets k j → P j)
    (hlimit : AtMost bound P) :
    Explores expand targets [] (distinct roots) (explore expand targets bound roots) :=
  explores_exploreFrom hclosed bound (by simpa using nodup_distinct roots)
    (fun j hj => hroots j (by simpa using hj)) (by simpa using hlimit)

/-- Exactly the reachable states are listed. -/
theorem mem_explore_iff {P : κ → Prop} {bound : Nat} {roots : List κ}
    (hroots : ∀ r ∈ roots, P r) (hclosed : ∀ k, P k → ∀ j, Leads expand targets k j → P j)
    (hlimit : AtMost bound P) {k : κ} :
    k ∈ (explore expand targets bound roots).map Prod.fst ↔
      ∃ r ∈ roots, Relation.ReflTransGen (Leads expand targets) r k := by
  constructor
  · intro hk
    rcases reachable_of_mem_exploreFrom bound hk with hk | ⟨r, hr, hrk⟩
    · simp at hk
    · exact ⟨r, mem_distinct.mp hr, hrk⟩
  · rintro ⟨r, hr, hrk⟩
    obtain ⟨hpending, htargets⟩ := (explores_explore hroots hclosed hlimit).closed
    induction hrk with
    | refl => exact hpending r (mem_distinct.mpr hr)
    | tail _ hij ih => exact htargets _ ih (by simp) _ hij

theorem distinct_singleton (root : κ) : distinct [root] = [root] := by simp [distinct, unseen]

/-- The root comes first. -/
theorem head_explore {bound : Nat} (root : κ) :
    ((explore expand targets (bound + 1) [root]).map Prod.fst)[0]? = some root := by
  rw [explore, distinct_singleton, exploreFrom]
  obtain ⟨rest, hrest⟩ : [(root, expand root)] <+: _ :=
    prefix_exploreFrom bound [(root, expand root)]
      ([] ++ unseen ([] ++ [root]) (targets (expand root)))
  simp only [List.map_nil, List.nil_append] at hrest ⊢
  rw [← hrest]
  simp

/-- The number of a listed state is its place in the list. -/
theorem eq_idxOf_iff {ks : List κ} {k : κ} {i : Nat} (hnodup : ks.Nodup) (hk : k ∈ ks) :
    i = ks.idxOf k ↔ ks[i]? = some k := by
  constructor
  · intro hi
    rw [hi]
    exact List.getElem?_idxOf hk
  · intro hi
    obtain ⟨hlt, rfl⟩ := List.getElem?_eq_some_iff.mp hi
    exact (hnodup.idxOf_getElem i hlt).symm

end GrammarAnalysis

import GrammarAnalysis.Proofs.Regex.Elimination

/-!
# Removing a state keeps the paths between the others

A walk between two states may be empty if they are the same, a path has one edge or more.
What paths spell cannot be told from what walks read, as an empty path and a label that has
the empty word look alike.  So the paths are compared by their first edges: a path that
starts with an edge to the removed state goes around its loop and then leaves it by another
edge (`Labelling.exists_leaving_edge`), and all this is one edge of the smaller table.

The tables are any whose two sides list the same labels, not only those that come from
an automaton.
-/

namespace GrammarAnalysis

open Computability

/-! ## Walks with an edge -/

namespace Labelling

variable {E : Labelling} {p q r : Nat} {word : List TerminalId}

/-- The words of the walks with at least one edge. -/
def trips (E : Labelling) (state last : Nat) : Language TerminalId :=
  {word | ∃ next, word ∈ E state next * E.walks next last}

/-- A walk to another state goes around the loop of its first state any number of times, and
then it takes an edge that leaves this state. -/
theorem exists_leaving_edge (hne : q ≠ r) (h : word ∈ E.walks q r) :
    ∃ next ≠ q, word ∈ (E q q)∗ * E q next * E.walks next r := by
  induction h with
  | refl => exact absurd rfl hne
  | @edge q next here rest first walk ih =>
      by_cases hnext : next = q
      · subst hnext
        obtain ⟨m, hm, hrest⟩ := ih hne
        have hloop : E next next * ((E next next)∗ * E next m * E.walks m r) ≤
            (E next next)∗ * E next m * E.walks m r := by
          rw [← mul_assoc, ← mul_assoc]
          exact mul_le_mul_left (mul_le_mul_left mul_kstar_le_kstar _) _
        exact ⟨m, hm, hloop (Language.append_mem_mul first hrest)⟩
      · have hedge : E q next ≤ (E q q)∗ * E q next :=
          calc
            E q next = 1 * E q next := (one_mul _).symm
            _ ≤ (E q q)∗ * E q next := mul_le_mul_left one_le_kstar _
        exact ⟨next, hnext, Language.append_mem_mul (hedge first) walk⟩

/-- Removing a state keeps the walks with an edge between the other states. -/
theorem trips_without (hp : p ≠ q) (hr : r ≠ q) : (E.without q).trips p r = E.trips p r := by
  ext word
  constructor
  · rintro ⟨next, hword⟩
    by_cases hnext : next = q
    · rw [hnext, without, if_pos (Or.inr rfl), zero_mul] at hword
      exact absurd hword (Language.notMem_zero word)
    · rw [without_of_ne hp hnext, walks_without hnext hr, add_mul] at hword
      rcases hword with hdirect | hdetour
      · exact ⟨next, hdirect⟩
      · have haround : (E q q)∗ * (E q next * E.walks next r) ≤ E.walks q r :=
          (mul_le_mul' (kstar_le_walks edge_le_walks) edge_mul_walks_le).trans
            walks_mul_walks_le
        rw [mul_assoc, mul_assoc] at hdetour
        exact ⟨q, mul_le_mul_right haround _ hdetour⟩
  · rintro ⟨next, hword⟩
    by_cases hnext : next = q
    · rw [hnext] at hword
      obtain ⟨here, hhere, rest, hrest, rfl⟩ := hword
      obtain ⟨after, hafter, hrest⟩ := exists_leaving_edge hr.symm hrest
      refine ⟨after, ?_⟩
      rw [without_of_ne hp hafter, walks_without hafter hr, add_mul]
      right
      have hdetour := Language.append_mem_mul hhere hrest
      rwa [← mul_assoc, ← mul_assoc] at hdetour
    · refine ⟨next, ?_⟩
      rw [without_of_ne hp hnext, walks_without hnext hr, add_mul]
      exact Or.inl hword

end Labelling

namespace EdgeTable

variable {edges : EdgeTable} {p r : Nat} {word : List TerminalId}

/-! ## Paths -/

/-- Whether a path of one or more edges to the state `last` spells the word, which is cut into
words of the labels on the path. -/
inductive Spells (edges : EdgeTable) (last : Nat) : Nat → List TerminalId → Prop
  | edge {state : Nat} {label : Regex} {word : List TerminalId}
      (known : edges.label? state last = some label) (here : word ∈ label.language) :
      Spells edges last state word
  | step {state next : Nat} {label : Regex} {here rest : List TerminalId}
      (known : edges.label? state next = some label) (first : here ∈ label.language)
      (path : Spells edges last next rest) : Spells edges last state (here ++ rest)

/-- The words that the paths between two states spell. -/
def paths (edges : EdgeTable) (state last : Nat) : Language TerminalId :=
  {word | edges.Spells last state word}

/-- Paths are walks with an edge. -/
theorem paths_eq_trips (edges : EdgeTable) (p r : Nat) :
    edges.paths p r = edges.language.trips p r := by
  ext word
  constructor
  · intro h
    induction h with
    | @edge state label word known here =>
        refine ⟨r, word, ⟨label, known, here⟩, [], Labelling.Reads.refl, ?_⟩
        exact List.append_nil word
    | @step state next label here rest known first _ ih =>
        obtain ⟨after, hrest⟩ := ih
        have hwalk : rest ∈ edges.language.walks next r := Labelling.edge_mul_walks_le hrest
        exact ⟨next, here, ⟨label, known, first⟩, rest, hwalk, rfl⟩
  · rintro ⟨next, here, ⟨label, known, hhere⟩, rest, hrest, rfl⟩
    induction hrest generalizing p here label with
    | refl =>
        dsimp only
        rw [List.append_nil]
        exact Spells.edge known hhere
    | edge first _ ih =>
        obtain ⟨label', known', hfirst⟩ := first
        exact Spells.step known hhere (ih _ _ label' known' hfirst)

/-! ## Edges of the removed state -/

theorem getD_modify_clear (rows : List Adjacency) (k : Nat) :
    ((rows.modify k fun _ => ∅)[k]?).getD ∅ = ∅ := by
  rw [List.getElem?_modify]
  cases rows[k]? <;> simp

theorem into_eliminate_self (edges : EdgeTable) (state : Nat) :
    (edges.eliminate state).into state = ∅ := by
  rw [eliminate_eq]
  exact getD_modify_clear _ state

theorem out_eliminate_self (edges : EdgeTable) (state : Nat) :
    (edges.eliminate state).out state = ∅ := by
  rw [eliminate_eq]
  exact getD_modify_clear _ state

/-- If the two sides of a table of edges list the same labels, they still do so after any state
is removed, and then neither the rows of this state nor those of the others have an edge of it.
What the paths between two other states spell stays the same, paths through the removed state
and paths from a state to itself included. -/
theorem eliminate_exact (h : edges.IsMirrored) (state : Nat) :
    (edges.eliminate state).IsMirrored ∧
      ((edges.eliminate state).into state = ∅ ∧ (edges.eliminate state).out state = ∅) ∧
      (∀ p, ((edges.eliminate state).into p).get? state = none ∧
        ((edges.eliminate state).out p).get? state = none) ∧
      ∀ p r, p ≠ state → r ≠ state →
        (edges.eliminate state).paths p r = edges.paths p r := by
  have hmirrored := h.eliminate state
  refine ⟨hmirrored, ⟨into_eliminate_self edges state, out_eliminate_self edges state⟩, ?_, ?_⟩
  · intro p
    constructor
    · have hlabel := label?_eliminate h state state p
      rw [if_pos (Or.inl rfl), ← hmirrored.mirror] at hlabel
      exact hlabel
    · have hlabel := label?_eliminate h state p state
      rwa [if_pos (Or.inr rfl)] at hlabel
  · intro p r hp hr
    rw [paths_eq_trips, paths_eq_trips, language_eliminate h, Labelling.trips_without hp hr]

/-- A state with a loop, with an edge back that reads the empty word, and with a detour beside
an edge that reads nothing. -/
theorem eliminate_exact_detour :
    ∃ edges : EdgeTable, edges.IsMirrored ∧ edges.label? 1 1 = some (.symbol 2) ∧
      edges.label? 1 0 = some .epsilon ∧ edges.label? 0 2 = some (.union []) ∧
      (edges.eliminate 1).IsMirrored ∧ (edges.eliminate 1).paths 0 0 = edges.paths 0 0 ∧
      [1, 2, 2, 1, 3] ∈ (edges.eliminate 1).paths 0 2 := by
  let links : List (Nat × Nat × Regex) :=
    [(0, 1, .symbol 1), (1, 1, .symbol 2), (1, 0, .epsilon), (0, 2, .union []), (1, 2, .symbol 3)]
  let empty : EdgeTable := ⟨[∅, ∅, ∅], [∅, ∅, ∅]⟩
  have hempty : empty.IsMirrored := by
    have hrow : ∀ k j, valueAt? [∅, ∅, ∅] k j = none := by
      intro k j
      rcases k with _ | _ | _ | k <;> rfl
    exact ⟨rfl, fun p q => (hrow q p).trans (hrow p q).symm⟩
  have hmirrored : (empty.connectAll links).IsMirrored := hempty.connectAll (by decide)
  obtain ⟨hkept, -, -, hpaths⟩ := eliminate_exact hmirrored 1
  refine ⟨empty.connectAll links, hmirrored, rfl, rfl, rfl, hkept,
    hpaths 0 0 (by decide) (by decide), ?_⟩
  rw [hpaths 0 2 (by decide) (by decide)]
  have hread : ∀ t, [t] ∈ (Regex.symbol t).language := fun t =>
    Regex.mem_language_symbol.mpr rfl
  have hnone : [] ∈ Regex.epsilon.language := by
    rw [Regex.language_epsilon]
    exact Language.nil_mem_one
  have hforth : (empty.connectAll links).label? 0 1 = some (.symbol 1) := rfl
  have hloop : (empty.connectAll links).label? 1 1 = some (.symbol 2) := rfl
  have hback : (empty.connectAll links).label? 1 0 = some .epsilon := rfl
  have hlast : (empty.connectAll links).label? 1 2 = some (.symbol 3) := rfl
  have hagain : (empty.connectAll links).Spells 2 0 [1, 3] :=
    .step hforth (hread 1) (.edge hlast (hread 3))
  have haround : (empty.connectAll links).Spells 2 1 [2, 2, 1, 3] :=
    .step hloop (hread 2) (.step hloop (hread 2) (.step hback hnone hagain))
  exact Spells.step hforth (hread 1) haround

end EdgeTable

end GrammarAnalysis

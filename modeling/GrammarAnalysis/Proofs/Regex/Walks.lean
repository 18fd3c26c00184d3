import GrammarAnalysis.Symbol
import Mathlib.Computability.Language
import Mathlib.Order.CompletePartialOrder

/-!
# Walks along labelled edges

An edge between two numbered states reads the words of its label, and a walk
reads the words of its edges one after the other.  The languages of the walks to
a fixed state are the least ones that the edges extend (`Labelling.walks_le`).

* `Labelling.walks_without`: a state can be removed if the paths through it
  become labels of the remaining edges.
* `Labelling.walks_self` and `Labelling.walks_pair` read the walks off if there
  are no more than two states.
-/

namespace GrammarAnalysis

open Computability

/-- The words that the edge between two states reads, for all states. -/
abbrev Labelling := Nat → Nat → Language TerminalId

namespace Labelling

/-- Whether some walk to the state `last` reads the word. -/
inductive Reads (E : Labelling) (last : Nat) : Nat → List TerminalId → Prop
  | refl : Reads E last last []
  | edge {state next : Nat} {here rest : List TerminalId} (first : here ∈ E state next)
      (walk : Reads E last next rest) : Reads E last state (here ++ rest)

/-- The words of the walks between two states. -/
def walks (E : Labelling) (state last : Nat) : Language TerminalId :=
  {word | E.Reads last state word}

variable {E : Labelling} {p m r : Nat}

/-! ## Walks and languages -/

theorem one_le_walks : 1 ≤ E.walks r r := by
  rintro word rfl
  exact Reads.refl

theorem edge_mul_walks_le : E p m * E.walks m r ≤ E.walks p r := by
  rintro _ ⟨here, hhere, rest, hrest, rfl⟩
  exact Reads.edge hhere hrest

/-- If the edges do not leave a set of states, the walks from these states are contained in
any languages that hold the empty word at the last state and are extended by the edges. -/
theorem walks_le_of_closed {S : Nat → Prop} {L : Nat → Language TerminalId}
    (hclosed : ∀ p, S p → ∀ m, ¬ S m → E p m = 0) (hlast : S r → 1 ≤ L r)
    (hedge : ∀ p m, S p → S m → E p m * L m ≤ L p) (hp : S p) : E.walks p r ≤ L p := by
  intro word hword
  induction hword with
  | refl => exact hlast hp rfl
  | @edge state next here rest first _ ih =>
      by_cases hnext : S next
      · exact hedge _ _ hp hnext (Language.append_mem_mul first (ih hnext))
      · rw [hclosed _ hp _ hnext] at first
        exact absurd first (Language.notMem_zero here)

/-- The walks to a state are the least languages that hold the empty word at this
state and are extended by the edges. -/
theorem walks_le {L : Nat → Language TerminalId} (hlast : 1 ≤ L r)
    (hedge : ∀ p m, E p m * L m ≤ L p) (p : Nat) : E.walks p r ≤ L p :=
  walks_le_of_closed (S := fun _ => True) (fun _ _ _ h => absurd trivial h) (fun _ => hlast)
    (fun p m _ _ => hedge p m) trivial

theorem edge_le_walks : E p r ≤ E.walks p r :=
  calc
    E p r = E p r * 1 := (mul_one _).symm
    _ ≤ E p r * E.walks r r := mul_le_mul_right one_le_walks _
    _ ≤ E.walks p r := edge_mul_walks_le

theorem walks_mul_walks_le : E.walks p m * E.walks m r ≤ E.walks p r := by
  rintro _ ⟨here, hhere, rest, hrest, rfl⟩
  induction hhere with
  | refl => exact hrest
  | edge first _ ih =>
      dsimp only at ih ⊢
      rw [List.append_assoc]
      exact Reads.edge first ih

theorem kstar_le_walks {L : Language TerminalId} (h : L ≤ E.walks p p) : L∗ ≤ E.walks p p :=
  kstar_le_of_mul_le_right one_le_walks ((mul_le_mul_left h _).trans walks_mul_walks_le)

/-! ## Removing a state -/

/-- The edges without those of the state `q`.  The paths through it, any number of
times around its loop, become edges between the other states. -/
def without (E : Labelling) (q : Nat) : Labelling := fun p r =>
  if p = q ∨ r = q then 0 else E p r + E p q * (E q q)∗ * E q r

theorem without_of_ne {q : Nat} (hp : p ≠ q) (hr : r ≠ q) :
    E.without q p r = E p r + E p q * (E q q)∗ * E q r :=
  if_neg (not_or.mpr ⟨hp, hr⟩)

theorem without_le_walks {q : Nat} : E.without q p r ≤ E.walks p r := by
  rw [without]
  split
  · exact bot_le
  · refine add_le edge_le_walks ?_
    calc
      E p q * (E q q)∗ * E q r ≤ E.walks p q * E.walks q q * E.walks q r :=
        mul_le_mul' (mul_le_mul' edge_le_walks (kstar_le_walks edge_le_walks)) edge_le_walks
      _ ≤ E.walks p q * E.walks q r := mul_le_mul_left walks_mul_walks_le _
      _ ≤ E.walks p r := walks_mul_walks_le

/-- Removing a state keeps the walks between the other states. -/
theorem walks_without {q : Nat} (hp : p ≠ q) (hr : r ≠ q) :
    (E.without q).walks p r = E.walks p r := by
  apply le_antisymm
  · refine walks_le (L := fun p => E.walks p r) one_le_walks (fun p m => ?_) p
    exact (mul_le_mul_left without_le_walks _).trans walks_mul_walks_le
  · -- a walk from `q` is a word that goes on after every path that has come to `q`
    let rest : Language TerminalId :=
      {word | ∀ s ≠ q, ∀ here ∈ E s q * (E q q)∗, here ++ word ∈ (E.without q).walks s r}
    let L : Nat → Language TerminalId := fun s => if s = q then rest else (E.without q).walks s r
    have hother : ∀ {s}, s ≠ q → L s = (E.without q).walks s r := fun hs => if_neg hs
    have hremoved : L q = rest := if_pos rfl
    have hstep : ∀ s m, E s m * L m ≤ L s := by
      intro s m
      by_cases hs : s = q <;> by_cases hm : m = q
      · rw [hs, hm, hremoved]
        rintro _ ⟨around, haround, word, hword, rfl⟩ s' hs' here hhere
        have hloop : E s' q * (E q q)∗ * E q q ≤ E s' q * (E q q)∗ := by
          rw [mul_assoc]
          exact mul_le_mul_right kstar_mul_le_kstar _
        have hrest := hword s' hs' (here ++ around)
          (hloop (Language.append_mem_mul hhere haround))
        rwa [List.append_assoc] at hrest
      · rw [hs, hremoved, hother hm]
        rintro _ ⟨forth, hforth, word, hword, rfl⟩ s' hs' here hhere
        have hedge : here ++ forth ∈ E.without q s' m := by
          rw [without_of_ne hs' hm]
          exact Or.inr (Language.append_mem_mul hhere hforth)
        have hrest := Reads.edge hedge hword
        rwa [List.append_assoc] at hrest
      · rw [hm, hremoved, hother hs]
        rintro _ ⟨here, hhere, word, hword, rfl⟩
        have hpath : E s q ≤ E s q * (E q q)∗ :=
          calc
            E s q = E s q * 1 := (mul_one _).symm
            _ ≤ E s q * (E q q)∗ := mul_le_mul_right one_le_kstar _
        exact hword s hs here (hpath hhere)
      · rw [hother hs, hother hm]
        refine (mul_le_mul_left ?_ _).trans edge_mul_walks_le
        rw [without_of_ne hs hm]
        exact le_self_add
    have hwalks := walks_le (L := L) (by rw [hother hr]; exact one_le_walks) hstep p
    rwa [hother hp] at hwalks

/-! ## Removing states one after the other -/

theorem walks_foldl_without {states : List Nat} (hp : p ∉ states) (hr : r ∉ states) :
    (states.foldl without E).walks p r = E.walks p r := by
  induction states generalizing E with
  | nil => rfl
  | cons q states ih =>
      obtain ⟨hpq, hp⟩ := not_or.mp (List.mem_cons.not.mp hp)
      obtain ⟨hrq, hr⟩ := not_or.mp (List.mem_cons.not.mp hr)
      rw [List.foldl_cons, ih hp hr, walks_without hpq hrq]

theorem without_eq_zero {q : Nat} (hto : ∀ p, E p m = 0) (p : Nat) : E.without q p m = 0 := by
  rw [without]
  split
  · rfl
  · rw [hto p, hto q, mul_zero, add_zero]

theorem foldl_without_eq_zero {states : List Nat} (hm : m ∈ states ∨ ∀ p, E p m = 0) (p : Nat) :
    states.foldl without E p m = 0 := by
  induction states generalizing E with
  | nil => exact (hm.resolve_left List.not_mem_nil) p
  | cons q states ih =>
      rw [List.foldl_cons]
      refine ih ?_
      rcases hm with hm | hto
      · rcases List.mem_cons.mp hm with rfl | hm
        · exact Or.inr fun p => if_pos (Or.inr rfl)
        · exact Or.inl hm
      · exact Or.inr (without_eq_zero hto)

/-- Removing states of a set that no edge leaves keeps it such a set. -/
theorem foldl_without_of_closed {states closed : List Nat} (hstates : states ⊆ closed)
    (h : ∀ p ∈ closed, ∀ m, m ∉ closed → E p m = 0) :
    ∀ p ∈ closed, ∀ m, m ∉ closed → states.foldl without E p m = 0 := by
  induction states generalizing E with
  | nil => exact h
  | cons q states ih =>
      obtain ⟨hq, hstates⟩ := List.cons_subset.mp hstates
      refine ih hstates fun p hp m hm => ?_
      rw [without]
      split
      · rfl
      · rw [h p hp m hm, h q hq m hm, mul_zero, add_zero]

/-! ## One and two states -/

/-- If no edge leads from a state to another one, its walks go around its loop. -/
theorem walks_self (h : ∀ m, m ≠ p → E p m = 0) : E.walks p p = (E p p)∗ := by
  apply le_antisymm
  · refine walks_le_of_closed (S := (· = p)) (L := fun _ => (E p p)∗) ?_ (fun _ => one_le_kstar)
      ?_ rfl
    · rintro _ rfl
      exact h
    · rintro _ _ rfl rfl
      exact mul_kstar_le_kstar
  · exact kstar_le_walks edge_le_walks

/-- If no edge leads from a state to another one, no walk does. -/
theorem walks_eq_zero (h : ∀ m, m ≠ p → E p m = 0) (hne : p ≠ r) : E.walks p r = 0 := by
  refine le_bot_iff.mp (walks_le_of_closed (S := (· = p)) (L := fun _ => ⊥) ?_
    (fun hr => absurd hr.symm hne) ?_ rfl)
  · rintro _ rfl
    exact h
  · rintro _ _ rfl rfl
    exact (mul_zero _).le

/-- If the edges of two states lead to these states only, a walk from the first to
the second goes around the first, by its loop or by the second state, then over
to the second one, and around its loop. -/
theorem walks_pair (hne : p ≠ r) (hp : ∀ m, m ≠ p → m ≠ r → E p m = 0)
    (hr : ∀ m, m ≠ p → m ≠ r → E r m = 0) :
    E.walks p r = (E p p + E p r * (E r r)∗ * E r p)∗ * (E p r * (E r r)∗) := by
  let forth : Language TerminalId := E p r * (E r r)∗
  let cycle : Language TerminalId := E p p + forth * E r p
  change E.walks p r = cycle∗ * forth
  apply le_antisymm
  · let L : Nat → Language TerminalId := fun s =>
      if s = p then cycle∗ * forth else (E r r)∗ * (1 + E r p * (cycle∗ * forth))
    have hfirst : L p = cycle∗ * forth := if_pos rfl
    have hsecond : L r = (E r r)∗ * (1 + E r p * (cycle∗ * forth)) := if_neg hne.symm
    have hcycle : cycle * (cycle∗ * forth) ≤ cycle∗ * forth := by
      rw [← mul_assoc]
      exact mul_le_mul_left mul_kstar_le_kstar _
    have haround : E r r * L r ≤ L r := by
      rw [hsecond, ← mul_assoc]
      exact mul_le_mul_left mul_kstar_le_kstar _
    have hback : 1 + E r p * L p ≤ L r := by
      rw [hfirst, hsecond]
      calc
        1 + E r p * (cycle∗ * forth) = 1 * (1 + E r p * (cycle∗ * forth)) := (one_mul _).symm
        _ ≤ (E r r)∗ * (1 + E r p * (cycle∗ * forth)) := mul_le_mul_left one_le_kstar _
    have hover : E p r * L r ≤ L p := by
      rw [hfirst, hsecond, ← mul_assoc, mul_add, mul_one, ← mul_assoc (E p r * (E r r)∗)]
      refine add_le ?_ ((mul_le_mul_left le_add_self _).trans hcycle)
      calc
        forth = 1 * forth := (one_mul _).symm
        _ ≤ cycle∗ * forth := mul_le_mul_left one_le_kstar _
    have hwalks : E.walks p r ≤ L p := by
      refine walks_le_of_closed (S := fun s => s = p ∨ s = r) ?_ ?_ ?_ (Or.inl rfl)
      · rintro s (rfl | rfl) m hm
        · exact hp m (not_or.mp hm).1 (not_or.mp hm).2
        · exact hr m (not_or.mp hm).1 (not_or.mp hm).2
      · exact fun _ => le_self_add.trans hback
      · rintro s m (rfl | rfl) (rfl | rfl)
        · rw [hfirst]
          exact (mul_le_mul_left le_self_add _).trans hcycle
        · exact hover
        · exact le_add_self.trans hback
        · exact haround
    rwa [hfirst] at hwalks
  · have hforth : forth ≤ E.walks p r :=
      (mul_le_mul' edge_le_walks (kstar_le_walks edge_le_walks)).trans walks_mul_walks_le
    have hcycle : cycle ≤ E.walks p p :=
      add_le edge_le_walks ((mul_le_mul' hforth edge_le_walks).trans walks_mul_walks_le)
    exact (mul_le_mul' (kstar_le_walks hcycle) hforth).trans walks_mul_walks_le

end Labelling

end GrammarAnalysis

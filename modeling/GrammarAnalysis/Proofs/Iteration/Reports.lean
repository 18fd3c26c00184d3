import GrammarAnalysis.Iteration.Reports
import GrammarAnalysis.Proofs.Collections.Maps
import GrammarAnalysis.Proofs.Collections.Sets

/-!
# Reports of growth

The report of a step is right if the step never makes the value smaller and reports a change
exactly if the value has become larger.  Reports of this kind can be chained: a pass of steps
with right reports has a right report, since what an earlier step has added is not taken away
by a later one.
-/

namespace GrammarAnalysis

variable {α β κ : Type} {measure : α → Nat}

/-- Whether a step from a value to the value of a result never shrinks it, and reports
exactly whether it has enlarged it. -/
structure TellsGrowth (measure : α → Nat) (a : α) (result : α × Bool) : Prop where
  le : measure a ≤ measure result.1
  iff : result.2 = true ↔ measure a < measure result.1

namespace TellsGrowth

/-- A step that does nothing has nothing to report. -/
theorem idle (measure : α → Nat) (a : α) : TellsGrowth measure a (a, false) where
  le := Nat.le_refl _
  iff := by simp

theorem trans {a : α} {result result' : α × Bool} (h : TellsGrowth measure a result)
    (h' : TellsGrowth measure result.1 result') :
    TellsGrowth measure a (result'.1, result.2 || result'.2) where
  le := Nat.le_trans h.le h'.le
  iff := by
    have hle := h.le
    have hle' := h'.le
    rw [Bool.or_eq_true, h.iff, h'.iff]
    change _ ↔ measure a < measure result'.1
    omega

/-- If nothing has changed, no change is reported. -/
theorem eq_idle {a : α} {result : α × Bool} (h : TellsGrowth measure a result)
    (hsame : result.1 = a) : result = (a, false) := by
  refine Prod.ext hsame (Bool.eq_false_iff.mpr fun hchanged => ?_)
  have hlt := h.iff.mp hchanged
  rw [hsame] at hlt
  exact absurd hlt (Nat.lt_irrefl _)

/-- Only the sizes before and after a step matter for its report. -/
theorem congr {β : Type} {measure' : β → Nat} {a : α} {a' : β} {result : α × Bool}
    {result' : β × Bool} (h : TellsGrowth measure a result) (hbefore : measure' a' = measure a)
    (hafter : measure' result'.1 = measure result.1) (hreport : result'.2 = result.2) :
    TellsGrowth measure' a' result' where
  le := by
    rw [hbefore, hafter]
    exact h.le
  iff := by
    rw [hreport, hbefore, hafter]
    exact h.iff

/-- A step that changes nothing or enlarges the value has only to report whether it has changed
anything. -/
theorem of_eq_self_or_lt {a : α} {result : α × Bool}
    (h : result.1 = a ∨ measure a < measure result.1) (hreport : result.2 = true ↔ result.1 ≠ a) :
    TellsGrowth measure a result := by
  rcases h with h | h
  · refine ⟨Nat.le_of_eq (congrArg measure h.symm), ?_⟩
    rw [hreport, h]
    simp
  · refine ⟨Nat.le_of_lt h, ?_⟩
    rw [hreport]
    refine iff_of_true (fun hsame => ?_) h
    rw [hsame] at h
    exact absurd h (Nat.lt_irrefl _)

end TellsGrowth

/-! ## Passes -/

theorem applyReporting_nil (step : α → β → α × Bool) (a : α) :
    applyReporting step [] a = (a, false) := rfl

theorem applyReporting_cons (step : α → β → α × Bool) (b : β) (bs : List β) (a : α) :
    applyReporting step (b :: bs) a =
      ((applyReporting step bs (step a b).1).1,
        (step a b).2 || (applyReporting step bs (step a b).1).2) := by
  have hreport : ∀ (bs : List β) (a : α) (reported : Bool),
      bs.foldl (fun done b => ((step done.1 b).1, done.2 || (step done.1 b).2)) (a, reported) =
        ((applyReporting step bs a).1, reported || (applyReporting step bs a).2) := by
    intro bs
    induction bs with
    | nil =>
        intro a reported
        simp [applyReporting]
    | cons b bs ih =>
        intro a reported
        rw [applyReporting, List.foldl_cons, List.foldl_cons, ih, ih, Bool.false_or, Bool.or_assoc]
  rw [applyReporting, List.foldl_cons, hreport, Bool.false_or]

/-- Without its reports a pass is a fold, if this holds of each step from the values that
come up. -/
theorem fst_applyReporting_of_keeps {P : α → Prop} {step : α → β → α × Bool}
    {plain : α → β → α} {bs : List β} (hkeeps : ∀ a, ∀ b ∈ bs, P a → P (plain a b))
    (h : ∀ a, ∀ b ∈ bs, P a → (step a b).1 = plain a b) {a : α} (ha : P a) :
    (applyReporting step bs a).1 = bs.foldl plain a := by
  induction bs generalizing a with
  | nil => rfl
  | cons b bs ih =>
      rw [applyReporting_cons, List.foldl_cons, ← h a b (by simp) ha]
      refine ih (fun a c hc => hkeeps a c (List.mem_cons_of_mem _ hc))
        (fun a c hc => h a c (List.mem_cons_of_mem _ hc)) ?_
      rw [h a b (by simp) ha]
      exact hkeeps a b (by simp) ha

theorem fst_applyReporting {step : α → β → α × Bool} {plain : α → β → α} {bs : List β}
    (h : ∀ a, ∀ b ∈ bs, (step a b).1 = plain a b) (a : α) :
    (applyReporting step bs a).1 = bs.foldl plain a :=
  fst_applyReporting_of_keeps (P := fun _ => True) (fun _ _ _ _ => trivial)
    (fun a b hb _ => h a b hb) trivial

/-- A pass of steps with right reports has a right report. -/
theorem tellsGrowth_applyReporting {step : α → β → α × Bool} {bs : List β}
    (h : ∀ a, ∀ b ∈ bs, TellsGrowth measure a (step a b)) (a : α) :
    TellsGrowth measure a (applyReporting step bs a) := by
  induction bs generalizing a with
  | nil => exact .idle measure a
  | cons b bs ih =>
      rw [applyReporting_cons]
      exact (h a b (by simp)).trans (ih (fun a c hc => h a c (List.mem_cons_of_mem _ hc)) _)

/-! ## Lists and sets -/

theorem tellsGrowth_insertNew [DecidableEq κ] (known : List κ) (k : κ) :
    TellsGrowth List.length known (insertNew known k) := by
  rw [insertNew]
  split
  · exact .idle _ known
  · refine ⟨?_, ?_⟩ <;> simp

namespace NatSet

theorem isSubset_iff {s t : NatSet} : s.isSubset t = true ↔ ∀ n ∈ s, n ∈ t := by
  simp [isSubset]

theorem fst_update (s t : NatSet) : (s.update t).1 = s ∪ t := by
  rw [update]
  split
  · next hsubset =>
    rw [isSubset_iff] at hsubset
    refine ext fun n => ?_
    rw [mem_union]
    exact ⟨Or.inl, fun h => h.elim id (hsubset n)⟩
  · rfl

theorem tellsGrowth_update (s t : NatSet) : TellsGrowth size s (s.update t) := by
  refine .of_eq_self_or_lt ?_ ?_
  · rw [fst_update]
    exact union_eq_self_or_size_lt s t
  · have hsame : s ∪ t = s ↔ t.isSubset s = true := by
      rw [isSubset_iff]
      constructor
      · intro h n hn
        rw [← h]
        exact mem_union.mpr (Or.inr hn)
      · intro h
        refine ext fun n => ?_
        rw [mem_union]
        exact ⟨fun hn => hn.elim id (h n), Or.inl⟩
    rw [fst_update, ne_eq, hsame, update]
    split <;> simp_all

/-- Adding the members one after the other is adding them all. -/
theorem fst_applyReporting_insertNew (s : NatSet) (ns : List Nat) :
    (applyReporting insertNew ns s).1 = ns.foldl (fun s n => s.insert n) s := by
  refine fst_applyReporting (fun s n _ => ?_) s
  rw [insertNew]
  split
  · next hn =>
    refine ext fun k => ?_
    rw [mem_insert]
    exact ⟨Or.inr, fun h => h.elim (fun hk => hk ▸ hn) id⟩
  · rfl

theorem tellsGrowth_insertNew (s : NatSet) (n : Nat) : TellsGrowth size s (s.insertNew n) := by
  rw [insertNew]
  split
  · exact .idle _ s
  · next hnew =>
    have hunion := union_eq_self_or_size_lt s (singleton n)
    have hinsert : s ∪ singleton n = s.insert n := by
      refine ext fun k => ?_
      rw [mem_union, mem_singleton, mem_insert, or_comm]
    rw [hinsert] at hunion
    have hlt : s.size < (s.insert n).size := by
      refine hunion.resolve_left fun hsame => hnew ?_
      rw [← hsame]
      exact mem_insert.mpr (Or.inl rfl)
    exact ⟨Nat.le_of_lt hlt, by simpa using hlt⟩

end NatSet

namespace TerminalSet

theorem fst_update (s t : TerminalSet) : (s.update t).1 = s ∪ t := by
  obtain ⟨terminals, epsilon⟩ := t
  cases epsilon with
  | false =>
      refine congr (congrArg mk (NatSet.fst_update _ _)) ?_
      exact (Bool.or_false _).symm
  | true =>
      refine congr (congrArg mk (NatSet.fst_update _ _)) ?_
      exact (Bool.or_true _).symm

theorem tellsGrowth_update (s t : TerminalSet) : TellsGrowth weight s (s.update t) := by
  have hterminals : TellsGrowth weight s (s.updateTerminals t) := by
    have h := NatSet.tellsGrowth_update s.terminals t.terminals
    refine ⟨Nat.add_le_add_right h.le _, h.iff.trans ?_⟩
    exact (Nat.add_lt_add_iff_right).symm
  have hmarker : ∀ s : TerminalSet, TellsGrowth weight s s.setEpsilon := by
    rintro ⟨terminals, epsilon⟩
    cases epsilon <;> constructor <;> simp [setEpsilon, weight]
  rw [update]
  split
  · exact hterminals.trans (hmarker _)
  · exact hterminals

end TerminalSet

/-! ## Maps of sets -/

namespace OrderedMap

variable [DecidableEq κ] {w : β → Nat}

/-- The weights of all values. -/
def total (w : β → Nat) (m : OrderedMap κ β) : Nat := totalBy (fun entry => w entry.2) m.entries

omit [DecidableEq κ] in
theorem weight_eq_total_add (w : β → Nat) (m : OrderedMap κ β) :
    m.weight w = m.total w + m.keys.length := by
  rw [weight, total, keys, List.length_map]
  induction m.entries with
  | nil => rfl
  | cons entry rest ih =>
      rw [totalBy_cons, totalBy_cons, List.length_cons, ih]
      omega

theorem total_place (k : κ) (f : Option β → β) (entries : List (κ × β)) :
    totalBy (fun entry => w entry.2) (place k f entries) + (find k entries).elim 0 w =
      totalBy (fun entry => w entry.2) entries + w (f (find k entries)) := by
  induction entries with
  | nil => simp [place, find]
  | cons entry rest ih =>
      obtain ⟨k', v⟩ := entry
      simp only [place, find]
      split
      · simp only [totalBy_cons, Option.elim_some]
        omega
      · simp only [totalBy_cons]
        omega

theorem total_upsert (m : OrderedMap κ β) (k : κ) (f : Option β → β) :
    (m.upsert k f).total w + (m.get? k).elim 0 w = m.total w + w (f (m.get? k)) :=
  total_place k f m.entries

/-- Changing an entry by a step with a right report has a right report, if a new entry has no
weight. -/
theorem tellsGrowth_updateEntry [EmptyCollection β] (hempty : w ∅ = 0) {f : β → β × Bool}
    (hf : ∀ v, TellsGrowth w v (f v)) (m : OrderedMap κ β) (k : κ) :
    TellsGrowth (total w) m (m.updateEntry k f) := by
  have hvalue := hf ((m.get? k).getD ∅)
  have hle := hvalue.le
  have htotal := m.total_upsert (w := w) k fun v => (f (v.getD ∅)).1
  have hbefore : (m.get? k).elim 0 w = w ((m.get? k).getD ∅) := by
    cases m.get? k with
    | none => exact hempty.symm
    | some v => rfl
  rw [hbefore] at htotal
  constructor
  · change m.total w ≤ (m.upsert k _).total w
    omega
  · rw [updateEntry, hvalue.iff]
    dsimp only
    omega

end OrderedMap

end GrammarAnalysis

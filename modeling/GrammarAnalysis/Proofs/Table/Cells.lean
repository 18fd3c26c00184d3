import GrammarAnalysis.Proofs.Collections.Maps
import GrammarAnalysis.Proofs.Iteration.Growth
import GrammarAnalysis.Table.Slot
import Mathlib.Data.List.Induction

/-!
# The content of table cells

A cell holds exactly the values that are registered for it, each once, in the order in
which they came first.  In a cell without a conflict the first value is the only one.
-/

namespace GrammarAnalysis

namespace Slot

variable {α : Type}

theorem mem_register [DecidableEq α] {slot : Slot α} {value v : α} :
    v ∈ (slot.register value).values ↔ v ∈ slot.values ∨ v = value := by
  rw [register]
  split
  · next hmem =>
    constructor
    · exact Or.inl
    · rintro (hv | rfl)
      · exact hv
      · exact hmem
  · simp

theorem nodup_register [DecidableEq α] {slot : Slot α} (h : slot.values.Nodup) (value : α) :
    (slot.register value).values.Nodup := by
  rw [register]
  split
  · exact h
  · next hnew =>
    refine List.nodup_append.mpr ⟨h, by simp, ?_⟩
    intro u hu v hv huv
    rw [List.mem_singleton.mp hv] at huv
    exact hnew (huv ▸ hu)

/-- A conflict stays. -/
theorem isConflict_register [DecidableEq α] {slot : Slot α} (h : slot.isConflict = true)
    (value : α) : (slot.register value).isConflict = true := by
  rw [register]
  split
  · exact h
  · simp only [isConflict, decide_eq_true_eq, List.length_append, List.length_singleton] at h ⊢
    omega

theorem mem_of_first? {slot : Slot α} {v : α} (h : slot.first? = some v) : v ∈ slot.values :=
  List.mem_of_head? h

/-- The first value of a cell whose values are all the same. -/
theorem first?_eq_of_forall {slot : Slot α} {v : α} (hmem : v ∈ slot.values)
    (hall : ∀ u ∈ slot.values, u = v) : slot.first? = some v := by
  rw [first?]
  cases hvalues : slot.values with
  | nil => simp [hvalues] at hmem
  | cons u rest =>
      rw [List.head?_cons, hall u (by simp [hvalues])]

/-- A cell without a conflict holds no two values. -/
theorem eq_of_mem {slot : Slot α} (h : slot.isConflict = false) {u v : α}
    (hu : u ∈ slot.values) (hv : v ∈ slot.values) : u = v := by
  have hlength : slot.values.length ≤ 1 := by simpa [isConflict] using h
  obtain ⟨w, hw⟩ : ∃ w, slot.values = [w] := by
    cases hvalues : slot.values with
    | nil => simp [hvalues] at hu
    | cons w rest =>
        rw [hvalues, List.length_cons] at hlength
        exact ⟨w, by rw [List.eq_nil_of_length_eq_zero (l := rest) (by omega)]⟩
  rw [hw, List.mem_singleton] at hu hv
  rw [hu, hv]

/-- A cell that lists each value once has no conflict if it holds no two values. -/
theorem isConflict_eq_false {slot : Slot α} (hnodup : slot.values.Nodup)
    (h : ∀ u ∈ slot.values, ∀ v ∈ slot.values, u = v) : slot.isConflict = false := by
  rw [isConflict, decide_eq_false_iff_not, Nat.not_lt]
  cases hvalues : slot.values with
  | nil => exact Nat.zero_le 1
  | cons w rest =>
      rw [hvalues] at hnodup h
      have hrest : rest = [] := by
        apply List.eq_nil_iff_forall_not_mem.mpr
        intro v hv
        have hw : v = w := h v (List.mem_cons_of_mem _ hv) w List.mem_cons_self
        rw [hw] at hv
        exact (List.nodup_cons.mp hnodup).1 hv
      rw [hrest]
      exact Nat.le_refl 1

theorem first?_eq_of_mem {slot : Slot α} (h : slot.isConflict = false) {v : α}
    (hv : v ∈ slot.values) : slot.first? = some v :=
  first?_eq_of_forall hv fun _ hu => eq_of_mem h hu hv

/-! ## Cells after registrations -/

section Registrations

variable [DecidableEq α]

/-- The cell after the listed registrations. -/
def ofRegistrations (registered : List α) : Slot α := registered.foldl register .empty

theorem ofRegistrations_concat (registered : List α) (value : α) :
    ofRegistrations (registered ++ [value]) = (ofRegistrations registered).register value :=
  List.foldl_append

/-- A cell lists the values that were registered in it, each where it came first. -/
theorem values_ofRegistrations (registered : List α) :
    (ofRegistrations registered).values = registered.eraseDups := by
  induction registered using List.reverseRecOn with
  | nil => rfl
  | append_singleton registered value ih =>
      have hmem : value ∈ (ofRegistrations registered).values ↔ value ∈ registered := by
        rw [ih, List.mem_eraseDups]
      rw [ofRegistrations_concat, register, List.eraseDups_append]
      by_cases hknown : value ∈ registered
      · rw [if_pos (hmem.mpr hknown), ih]
        simp [List.removeAll, hknown]
      · rw [if_neg (mt hmem.mp hknown), ih]
        simp [List.removeAll, hknown, List.eraseDups_cons]

theorem mem_ofRegistrations {registered : List α} {v : α} :
    v ∈ (ofRegistrations registered).values ↔ v ∈ registered := by
  rw [values_ofRegistrations, List.mem_eraseDups]

theorem nodup_ofRegistrations (registered : List α) :
    (ofRegistrations registered).values.Nodup :=
  foldl_keeps (P := fun slot : Slot α => slot.values.Nodup)
    (fun _ value _ h => nodup_register h value) List.nodup_nil

end Registrations

end Slot

namespace Cells

variable {κ α : Type} [DecidableEq κ] [DecidableEq α]

theorem mem_slot_register {cells : Cells κ α} {k j : κ} {value v : α} :
    v ∈ ((Cells.register cells k value).slot j).values ↔
      v ∈ (cells.slot j).values ∨ (j, v) = (k, value) := by
  rw [slot, register, OrderedMap.get?_upsert, Prod.mk.injEq]
  split
  · next hj =>
    rw [Option.getD_some, Slot.mem_register, slot, hj]
    simp
  · next hj => simp [slot, hj]

theorem slot_register_self (cells : Cells κ α) (k : κ) (value : α) :
    (Cells.register cells k value).slot k = (cells.slot k).register value := by
  simp [slot, register]

theorem slot_register_of_ne {cells : Cells κ α} {k j : κ} (hne : j ≠ k) (value : α) :
    (Cells.register cells k value).slot j = cells.slot j := by
  rw [slot, register, OrderedMap.get?_upsert, if_neg hne, slot]

/-- A cell of a table has received what was registered under its key, in the same order. -/
theorem slot_ofRegistrations (registrations : List (κ × α)) (k : κ) :
    (ofRegistrations registrations).slot k =
      Slot.ofRegistrations ((registrations.filter fun entry => entry.1 = k).map Prod.snd) := by
  induction registrations using List.reverseRecOn with
  | nil => simp [ofRegistrations, slot, Slot.ofRegistrations]
  | append_singleton registrations entry ih =>
      rw [ofRegistrations] at ih ⊢
      rw [List.foldl_append, List.foldl_cons, List.foldl_nil, List.filter_append, List.map_append]
      by_cases hk : entry.1 = k
      · subst hk
        rw [slot_register_self, ih, ← Slot.ofRegistrations_concat]
        simp
      · rw [slot_register_of_ne (Ne.symm hk), ih]
        simp [hk]

/-- A cell holds exactly the values that are registered for it. -/
theorem mem_slot_ofRegistrations {registrations : List (κ × α)} {k : κ} {v : α} :
    v ∈ ((ofRegistrations registrations).slot k).values ↔ (k, v) ∈ registrations := by
  rw [slot_ofRegistrations, Slot.mem_ofRegistrations]
  simp

/-- A cell lists each value once. -/
theorem nodup_slot_ofRegistrations (registrations : List (κ × α)) (k : κ) :
    ((ofRegistrations registrations).slot k).values.Nodup := by
  rw [slot_ofRegistrations]
  exact Slot.nodup_ofRegistrations _

omit [DecidableEq α] in
/-- A cell that is not empty is listed. -/
theorem slot_mem_values {cells : Cells κ α} {k : κ} (h : cells.slot k ≠ .empty) :
    cells.slot k ∈ cells.values := by
  cases hget : cells.get? k with
  | none => simp [slot, hget] at h
  | some found =>
      have : cells.slot k = found := by simp [slot, hget]
      rw [this]
      exact OrderedMap.mem_values_of_get? hget

omit [DecidableEq α] in
/-- If no listed cell has a conflict, no cell has. -/
theorem isConflict_slot_eq_false {cells : Cells κ α}
    (h : cells.values.all (fun slot => !slot.isConflict) = true) (k : κ) :
    (cells.slot k).isConflict = false := by
  by_cases hempty : cells.slot k = .empty
  · rw [hempty]
    rfl
  · have := List.all_eq_true.mp h _ (slot_mem_values hempty)
    simpa using this

omit [DecidableEq α] in
/-- If no cell has a conflict, no listed cell has. -/
theorem all_isConflict_eq_false {cells : Cells κ α}
    (h : ∀ k, (cells.slot k).isConflict = false) :
    cells.values.all (fun slot => !slot.isConflict) = true := by
  apply List.all_eq_true.mpr
  intro found hfound
  obtain ⟨k, hk⟩ := OrderedMap.mem_values_iff.mp hfound
  have hslot : cells.slot k = found := by rw [slot, hk, Option.getD_some]
  rw [← hslot, h k]
  rfl

end Cells

end GrammarAnalysis

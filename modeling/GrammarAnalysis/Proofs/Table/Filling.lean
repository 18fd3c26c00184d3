import GrammarAnalysis.Proofs.Table.Cells

/-!
# Filling the cells of all rows in one map

Registering a value can report at once whether the cell has a conflict afterwards.
Conflicts stay, so no cell has a conflict in the end exactly if no registration has
reported one (`Cells.forall_isConflict_register_iff` is the step of this argument).

The rows of a table can be kept in one map, whose keys name the row.  Filled row after
row, it lists the cells of the rows one behind the other (`Cells.entries_fillRows`).
-/

namespace GrammarAnalysis

namespace Slot

variable {α : Type} [DecidableEq α]

/-- Registers a value, and reports whether the cell holds no two values afterwards. -/
def registerOk (slot : Slot α) (value : α) : Slot α × Bool :=
  match slot.values with
  | [] => (⟨[value]⟩, true)
  | [known] => if known = value then (⟨[known]⟩, true) else (⟨[known, value]⟩, false)
  | values => (if value ∈ values then ⟨values⟩ else ⟨values ++ [value]⟩, false)

theorem registerOk_eq (slot : Slot α) (value : α) :
    slot.registerOk value = (slot.register value, !(slot.register value).isConflict) := by
  obtain ⟨values⟩ := slot
  rw [registerOk]
  split
  · next hnone =>
    obtain rfl : values = [] := hnone
    rfl
  · next known hone =>
    obtain rfl : values = [known] := hone
    by_cases hsame : known = value
    · simp [register, isConflict, hsame]
    · simp [register, isConflict, hsame, Ne.symm hsame]
  · next _ hnone hone =>
    have hconflict : isConflict (⟨values⟩ : Slot α) = true := by
      obtain ⟨known, rest, rfl⟩ := List.exists_cons_of_ne_nil (hnone : values ≠ [])
      cases rest with
      | nil => exact absurd rfl (hone known)
      | cons other rest => simp [isConflict]
    rw [isConflict_register hconflict]
    rfl

end Slot

namespace Cells

variable {κ σ α : Type} [DecidableEq κ] [DecidableEq σ] [DecidableEq α]

/-- Registers a value in a cell, and reports whether the cell has no conflict afterwards. -/
def registerOk (cells : Cells κ α) (k : κ) (value : α) : Cells κ α × Bool :=
  (cells.upsert k fun slot => ((slot.getD .empty).registerOk value).1,
    ((cells.slot k).registerOk value).2)

theorem registerOk_eq (cells : Cells κ α) (k : κ) (value : α) :
    registerOk cells k value =
      (register cells k value, !((register cells k value).slot k).isConflict) := by
  simp only [registerOk, Slot.registerOk_eq, slot_register_self]
  rfl

/-- If no cell has a conflict after a registration, no cell had one before. -/
theorem forall_isConflict_register_iff {cells : Cells κ α} {k : κ} {value : α} :
    (∀ j, ((register cells k value).slot j).isConflict = false) ↔
      (∀ j, (cells.slot j).isConflict = false) ∧
        ((register cells k value).slot k).isConflict = false := by
  constructor
  · intro h
    refine ⟨fun j => ?_, h k⟩
    have hj := h j
    by_cases hjk : j = k
    · subst hjk
      rw [slot_register_self] at hj
      rw [← Bool.not_eq_true] at hj ⊢
      exact fun hconflict => hj (Slot.isConflict_register hconflict value)
    · rwa [slot_register_of_ne hjk] at hj
  · intro ⟨h, hk⟩ j
    by_cases hjk : j = k
    · rw [hjk, hk]
    · rw [slot_register_of_ne hjk, h j]

/-! ## Rows in one map -/

/-- The cells of the row `s`, as they are listed among the cells of all rows. -/
def entriesIn (s : σ) (cells : Cells κ α) : List ((σ × κ) × Slot α) :=
  cells.entries.map fun entry => ((s, entry.1), entry.2)

/-- Registers a value in a cell of the row `s`. -/
def registerIn (s : σ) (cells : Cells (σ × κ) α) (entry : κ × α) : Cells (σ × κ) α :=
  register cells (s, entry.1) entry.2

theorem entries_registerIn {s : σ} {front : List ((σ × κ) × Slot α)}
    (hfront : ∀ entry ∈ front, entry.1.1 ≠ s) {cells : Cells (σ × κ) α} {row : Cells κ α}
    (h : cells.entries = front ++ entriesIn s row) (entry : κ × α) :
    (registerIn s cells entry).entries =
      front ++ entriesIn s (register row entry.1 entry.2) := by
  have hnew : (s, entry.1) ∉ front.map Prod.fst := by
    intro hmem
    obtain ⟨known, hknown, heq⟩ := List.mem_map.mp hmem
    exact hfront known hknown (congrArg Prod.fst heq)
  have hinjective : Function.Injective fun k : κ => (s, k) :=
    fun _ _ heq => congrArg Prod.snd heq
  have hplaced : (registerIn s cells entry).entries = OrderedMap.place (s, entry.1)
      (fun slot => (slot.getD .empty).register entry.2) cells.entries := rfl
  rw [hplaced, h, OrderedMap.place_append_of_not_mem _ _ hnew, entriesIn,
    OrderedMap.place_map_keys hinjective]
  rfl

/-- Registrations in the row `s`, which is listed last, leave the other rows alone. -/
theorem entries_foldl_registerIn {s : σ} {front : List ((σ × κ) × Slot α)}
    (hfront : ∀ entry ∈ front, entry.1.1 ≠ s) (registrations : List (κ × α))
    {cells : Cells (σ × κ) α} {row : Cells κ α} (h : cells.entries = front ++ entriesIn s row) :
    (registrations.foldl (registerIn s) cells).entries = front ++ entriesIn s
      (registrations.foldl (fun row entry => register row entry.1 entry.2) row) := by
  induction registrations generalizing cells row with
  | nil => exact h
  | cons entry rest ih => exact ih (entries_registerIn hfront h entry)

/-- The cells of all rows, where each row is filled with its own registrations. -/
def fillRows {ρ : Type} (registrations : ρ → List (κ × α)) (rows : List ρ) : Cells (Nat × κ) α :=
  rows.zipIdx.foldl (fun cells row => (registrations row.1).foldl (registerIn row.2) cells) ∅

section Rows

variable {ρ : Type} (registrations : ρ → List (κ × α)) (rows : List ρ)

theorem entries_foldl_zipIdx {first : Nat} {cells : Cells (Nat × κ) α}
    (h : ∀ entry ∈ cells.entries, entry.1.1 < first) :
    ((rows.zipIdx first).foldl
        (fun cells row => (registrations row.1).foldl (registerIn row.2) cells) cells).entries =
      cells.entries ++ (rows.zipIdx first).flatMap fun row =>
        entriesIn row.2 (ofRegistrations (registrations row.1)) := by
  induction rows generalizing first cells with
  | nil => simp
  | cons row rows ih =>
      have hempty : cells.entries = cells.entries ++ entriesIn first (∅ : Cells κ α) :=
        (List.append_nil _).symm
      have hrow := entries_foldl_registerIn (fun entry hentry => Nat.ne_of_lt (h entry hentry))
        (registrations row) hempty
      have hnext : ∀ entry ∈ ((registrations row).foldl (registerIn first) cells).entries,
          entry.1.1 < first + 1 := by
        intro entry hentry
        rw [hrow, List.mem_append] at hentry
        rcases hentry with hbefore | hhere
        · exact Nat.lt_succ_of_lt (h entry hbefore)
        · obtain ⟨-, -, rfl⟩ := List.mem_map.mp hhere
          exact Nat.lt_succ_self first
      rw [List.zipIdx_cons, List.foldl_cons, List.flatMap_cons, ih hnext, hrow, List.append_assoc]
      rfl

/-- The cells are listed row by row. -/
theorem entries_fillRows :
    (fillRows registrations rows).entries = rows.zipIdx.flatMap fun row =>
      entriesIn row.2 (ofRegistrations (registrations row.1)) :=
  entries_foldl_zipIdx registrations rows fun _ hentry => absurd hentry List.not_mem_nil

theorem get?_fillRows (s : Nat) (k : κ) :
    (fillRows registrations rows).get? (s, k) =
      rows[s]?.bind fun row => (ofRegistrations (registrations row)).get? k := by
  ext slot
  simp only [OrderedMap.get?_eq_some_iff, entries_fillRows, entriesIn, List.mem_flatMap,
    List.mem_map, Prod.exists, List.mem_zipIdx_iff_getElem?, Prod.mk.injEq,
    Option.bind_eq_some_iff]
  constructor
  · rintro ⟨row, s, hrow, k, slot, hmem, ⟨rfl, rfl⟩, rfl⟩
    exact ⟨row, hrow, hmem⟩
  · rintro ⟨row, hrow, hmem⟩
    exact ⟨row, s, hrow, k, slot, hmem, ⟨rfl, rfl⟩, rfl⟩

end Rows

end Cells

end GrammarAnalysis

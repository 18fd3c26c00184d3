import GrammarAnalysis.Proofs.Table.Filling
import Mathlib.Data.List.Basic

/-!
# Registrations in one cell

What is read off a cell of a table is told from the values that were registered in it:
the distinct values in the order in which they came, the value that came first, and
whether two of them differ.

A cell can be stored without a list as long as it holds no two values, and a
registration can report at once whether this is still so.  `StoredSlot` is a cell in this
form.  It is determined by the values of the cell (`StoredSlot.ofSlot`), and registering
a value in it is registering the value in the cell (`StoredSlot.register_ofSlot`).
-/

namespace GrammarAnalysis

namespace Slot

variable {α : Type} [DecidableEq α]

theorem first?_ofRegistrations (registered : List α) :
    (ofRegistrations registered).first? = registered.head? := by
  rw [first?, values_ofRegistrations]
  cases registered with
  | nil => rfl
  | cons value rest => rw [List.eraseDups_cons, List.head?_cons, List.head?_cons]

/-- Of two values in a cell, the one that was registered earlier is listed earlier. -/
theorem pairwise_idxOf_ofRegistrations (registered : List α) :
    (ofRegistrations registered).values.Pairwise fun u v =>
      registered.idxOf u < registered.idxOf v := by
  induction registered using List.reverseRecOn with
  | nil => exact .nil
  | append_singleton registered value ih =>
      have hlisted : (ofRegistrations registered).values.Pairwise fun u v =>
          (registered ++ [value]).idxOf u < (registered ++ [value]).idxOf v := by
        refine ih.imp_of_mem fun hu hv hlt => ?_
        rwa [List.idxOf_append_of_mem (mem_ofRegistrations.mp hu),
          List.idxOf_append_of_mem (mem_ofRegistrations.mp hv)]
      rw [ofRegistrations_concat, register]
      split
      · exact hlisted
      · next hnew =>
        -- A new value comes first at the very end, behind all values that are listed.
        refine List.pairwise_append.mpr ⟨hlisted, List.pairwise_singleton _ _, ?_⟩
        intro u hu v hv
        obtain rfl := List.mem_singleton.mp hv
        have hmem : u ∈ registered := mem_ofRegistrations.mp hu
        have hnot : v ∉ registered := mt mem_ofRegistrations.mpr hnew
        rw [List.idxOf_append_of_mem hmem, List.idxOf_append_of_notMem hnot]
        exact Nat.lt_add_right _ (List.idxOf_lt_length_of_mem hmem)

theorem isConflict_ofRegistrations_eq_false_iff {registered : List α} :
    (ofRegistrations registered).isConflict = false ↔
      ∀ u ∈ registered, ∀ v ∈ registered, u = v := by
  constructor
  · intro hfree u hu v hv
    exact eq_of_mem hfree (mem_ofRegistrations.mpr hu) (mem_ofRegistrations.mpr hv)
  · intro hsame
    refine isConflict_eq_false (nodup_ofRegistrations registered) fun u hu v hv => ?_
    exact hsame u (mem_ofRegistrations.mp hu) v (mem_ofRegistrations.mp hv)

/-- A cell has a conflict exactly if two different values were registered in it. -/
theorem isConflict_ofRegistrations_iff {registered : List α} :
    (ofRegistrations registered).isConflict = true ↔
      ∃ u ∈ registered, ∃ v ∈ registered, u ≠ v := by
  rw [← Bool.not_eq_false, isConflict_ofRegistrations_eq_false_iff]
  simp only [Classical.not_forall, exists_prop, ne_eq]

end Slot

/-- A cell as it is stored: a list is kept once there is a second value. -/
inductive StoredSlot (α : Type) where
  | empty
  | single (value : α)
  | conflict (values : List α)
deriving DecidableEq

namespace StoredSlot

variable {α : Type}

/-- The values in the cell, in the order in which they are listed. -/
def values : StoredSlot α → List α
  | .empty => []
  | .single value => [value]
  | .conflict values => values

/-- The value that was registered first. -/
def first? (stored : StoredSlot α) : Option α := stored.values.head?

/-- Whether the cell is stored as a conflict. -/
def isConflict : StoredSlot α → Bool
  | .conflict _ => true
  | _ => false

/-- The form in which the values of a cell are stored. -/
def ofSlot (slot : Slot α) : StoredSlot α :=
  match slot.values with
  | [] => .empty
  | [value] => .single value
  | values => .conflict values

/-! ## Reading a stored cell is reading the cell -/

theorem values_ofSlot (slot : Slot α) : (ofSlot slot).values = slot.values := by
  obtain ⟨values⟩ := slot
  match values with
  | [] => rfl
  | [_] => rfl
  | _ :: _ :: _ => rfl

theorem first?_ofSlot (slot : Slot α) : (ofSlot slot).first? = slot.first? := by
  rw [first?, values_ofSlot, Slot.first?]

theorem isConflict_ofSlot (slot : Slot α) : (ofSlot slot).isConflict = slot.isConflict := by
  obtain ⟨values⟩ := slot
  match values with
  | [] => rfl
  | [_] => rfl
  | _ :: _ :: _ => simp [ofSlot, isConflict, Slot.isConflict]

/-! ## Registrations in a stored cell -/

section Registrations

variable [DecidableEq α]

/-- Registers a value, and reports whether the cell holds no two values afterwards. -/
def register : StoredSlot α → α → StoredSlot α × Bool
  | .empty, value => (.single value, true)
  | .single known, value =>
      if known = value then (.single known, true) else (.conflict [known, value], false)
  | .conflict values, value =>
      (.conflict (if value ∈ values then values else values ++ [value]), false)

/-- Registering a value in a stored cell is registering it in the cell. -/
theorem register_ofSlot (slot : Slot α) (value : α) :
    (ofSlot slot).register value =
      (ofSlot (slot.register value), !(slot.register value).isConflict) := by
  have hreports : (ofSlot slot).register value =
      (ofSlot (slot.registerOk value).1, (slot.registerOk value).2) := by
    obtain ⟨values⟩ := slot
    match values with
    | [] => rfl
    | [known] =>
        by_cases hsame : known = value
        · simp [ofSlot, register, Slot.registerOk, hsame]
        · simp [ofSlot, register, Slot.registerOk, hsame]
    | first :: second :: rest =>
        by_cases hknown : value ∈ first :: second :: rest
        · simp only [ofSlot, register, Slot.registerOk, if_pos hknown]
        · simp only [ofSlot, register, Slot.registerOk, if_neg hknown, List.cons_append]
  rw [hreports, Slot.registerOk_eq]

/-- The stored cell after the listed registrations. -/
def ofRegistrations (registered : List α) : StoredSlot α :=
  registered.foldl (fun stored value => (stored.register value).1) .empty

/-- Registrations in an empty stored cell are registrations in an empty cell. -/
theorem ofRegistrations_eq_ofSlot (registered : List α) :
    ofRegistrations registered = ofSlot (Slot.ofRegistrations registered) := by
  have hempty : ofSlot (Slot.empty : Slot α) = .empty := rfl
  rw [ofRegistrations, ← hempty]
  refine List.foldl_hom ofSlot fun slot value => ?_
  rw [register_ofSlot]

/-- A cell that is stored as a conflict holds at least two values, which are pairwise distinct. -/
theorem length_values_of_conflict {registered values : List α}
    (h : ofRegistrations registered = .conflict values) :
    2 ≤ values.length ∧ values.Nodup := by
  have hvalues : values = (Slot.ofRegistrations registered).values := by
    rw [← values_ofSlot, ← ofRegistrations_eq_ofSlot, h, StoredSlot.values]
  have hconflict : (Slot.ofRegistrations registered).isConflict = true := by
    rw [← isConflict_ofSlot, ← ofRegistrations_eq_ofSlot, h, isConflict]
  rw [hvalues]
  exact ⟨of_decide_eq_true hconflict, Slot.nodup_ofRegistrations registered⟩

/-- A registration reports whether all values that were registered so far are equal. -/
theorem register_ofRegistrations_eq_true_iff {registered : List α} {value : α} :
    ((ofRegistrations registered).register value).2 = true ↔
      ∀ u ∈ registered ++ [value], ∀ v ∈ registered ++ [value], u = v := by
  rw [ofRegistrations_eq_ofSlot, register_ofSlot, ← Slot.ofRegistrations_concat,
    Bool.not_eq_true', Slot.isConflict_ofRegistrations_eq_false_iff]

/-- After any registrations in an empty cell, the stored cell reads as the cell of the table
does. It lists the distinct values in the order of their first registrations, so the first one
is the value that was registered first. It is a conflict exactly if two different values were
registered, and then it holds at least two values, all different. The next registration reports
that there is no conflict exactly if all values registered up to then, its own included, are
equal. -/
theorem registrations_exact (registered : List α) :
    let stored := ofRegistrations registered
    let slot := Slot.ofRegistrations registered
    (stored.values = slot.values ∧ stored.first? = slot.first? ∧
      stored.isConflict = slot.isConflict) ∧
    stored.values = registered.eraseDups ∧
    stored.values.Pairwise (fun u v => registered.idxOf u < registered.idxOf v) ∧
    stored.first? = registered.head? ∧
    (stored.isConflict = true ↔ ∃ u ∈ registered, ∃ v ∈ registered, u ≠ v) ∧
    (∀ values, stored = .conflict values → 2 ≤ values.length ∧ values.Nodup) ∧
    ∀ value, (stored.register value).2 = true ↔
      ∀ u ∈ registered ++ [value], ∀ v ∈ registered ++ [value], u = v := by
  intro stored slot
  have hstored : stored = ofSlot slot := ofRegistrations_eq_ofSlot registered
  have hvalues : stored.values = slot.values := by rw [hstored, values_ofSlot]
  have hfirst : stored.first? = slot.first? := by rw [hstored, first?_ofSlot]
  have hconflict : stored.isConflict = slot.isConflict := by rw [hstored, isConflict_ofSlot]
  refine ⟨⟨hvalues, hfirst, hconflict⟩, ?_, ?_, ?_, ?_, ?_, ?_⟩
  · rw [hvalues, Slot.values_ofRegistrations]
  · rw [hvalues]
    exact Slot.pairwise_idxOf_ofRegistrations registered
  · rw [hfirst, Slot.first?_ofRegistrations]
  · rw [hconflict, Slot.isConflict_ofRegistrations_iff]
  · intro values h
    exact length_values_of_conflict h
  · intro value
    exact register_ofRegistrations_eq_true_iff

/-- A value may come again before or after the cell has turned into a conflict. -/
example : ofRegistrations [1, 1, 2, 1] = .conflict [1, 2] ∧
    ((ofRegistrations [1]).register 1).2 = true ∧
    ((ofRegistrations [1, 1, 2]).register 1).2 = false := by decide

end Registrations

end StoredSlot

end GrammarAnalysis

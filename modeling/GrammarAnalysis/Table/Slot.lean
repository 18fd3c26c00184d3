import GrammarAnalysis.Collections.OrderedMap

/-!
# Table cells

A cell of a parsing table remembers every value that is registered in it, each
once, in the order of registration.  The table is usable without guessing as
long as no cell holds two values.
-/

namespace GrammarAnalysis

/-- A table cell with the distinct values registered in it. -/
structure Slot (α : Type) where
  values : List α
deriving DecidableEq

namespace Slot

variable {α : Type}

/-- The cell without values. -/
def empty : Slot α := ⟨[]⟩

instance : Inhabited (Slot α) := ⟨empty⟩

/-- The value that was registered first. -/
def first? (slot : Slot α) : Option α := slot.values.head?

/-- Whether the cell holds more than one value. -/
def isConflict (slot : Slot α) : Bool := 1 < slot.values.length

/-- Registers a value. -/
def register [DecidableEq α] (slot : Slot α) (value : α) : Slot α :=
  if value ∈ slot.values then slot else ⟨slot.values ++ [value]⟩

end Slot

/-- The cells of a table, by key, in the order of first registration. -/
abbrev Cells (κ α : Type) := OrderedMap κ (Slot α)

namespace Cells

variable {κ α : Type} [DecidableEq κ] [DecidableEq α]

/-- The content of a cell. -/
def slot (cells : Cells κ α) (k : κ) : Slot α := (cells.get? k).getD .empty

/-- Registers a value in a cell. -/
def register (cells : Cells κ α) (k : κ) (value : α) : Cells κ α :=
  cells.upsert k fun slot => (slot.getD .empty).register value

/-- The cells after the listed registrations. -/
def ofRegistrations (registrations : List (κ × α)) : Cells κ α :=
  registrations.foldl (fun cells entry => Cells.register cells entry.1 entry.2) ∅

end Cells

end GrammarAnalysis

import Mathlib.Data.List.Sort
import GrammarAnalysis.Item.Set

/-!
# Item sets as relations

A set of items is known by its items and by the lookaheads of each of them.
Adding entries adds exactly their items and lookaheads, and two sets with the
same items and the same lookaheads are equal.  Sets are ordered by inclusion.
-/

namespace GrammarAnalysis

instance : Std.Irrefl (fun a b : Item => a < b) := ⟨Item.lt_irrefl⟩

instance : Std.Antisymm (fun a b : Item => a < b) :=
  ⟨fun a _ hab hba => (Item.lt_irrefl a (Item.lt_trans hab hba)).elim⟩

namespace ItemSet

/-- Whether the set has the item with the terminal among its lookaheads. -/
def Looks (items : ItemSet) (item : Item) (t : TerminalId) : Prop :=
  ∃ known, items.lookaheads? item = some known ∧ t ∈ known

theorem mem_cores_iff {items : ItemSet} {item : Item} :
    item ∈ items.cores ↔ ∃ known, items.lookaheads? item = some known := by
  simp [cores, lookaheads?_eq_some_iff]

theorem Looks.mem_cores {items : ItemSet} {item : Item} {t : TerminalId}
    (h : items.Looks item t) : item ∈ items.cores := by
  obtain ⟨known, hknown, -⟩ := h
  exact mem_cores_iff.mpr ⟨known, hknown⟩

theorem looks_iff_exists_mem {items : ItemSet} {item : Item} {t : TerminalId} :
    items.Looks item t ↔ ∃ known, (item, known) ∈ items.entries ∧ t ∈ known := by
  simp [Looks, lookaheads?_eq_some_iff]

@[simp] theorem cores_empty : (∅ : ItemSet).cores = [] := rfl

@[simp] theorem not_looks_empty (item : Item) (t : TerminalId) :
    ¬ (∅ : ItemSet).Looks item t := by
  rintro ⟨known, hknown, -⟩
  simp [lookaheads?, EmptyCollection.emptyCollection, empty, find] at hknown

@[simp] theorem mem_cores_add {items : ItemSet} {item j : Item} {added : NatSet} :
    j ∈ (items.add item added).cores ↔ j = item ∨ j ∈ items.cores :=
  mem_map_fst_place

@[simp] theorem looks_add {items : ItemSet} {item j : Item} {added : NatSet} {t : TerminalId} :
    (items.add item added).Looks j t ↔ items.Looks j t ∨ j = item ∧ t ∈ added := by
  rw [Looks, lookaheads?_add]
  split
  · next hj =>
    subst hj
    cases h : items.lookaheads? j with
    | none => simp [Looks, h]
    | some known => simp [Looks, h]
  · next hj => simp [Looks, hj]

theorem mem_cores_addAll {items : ItemSet} {entries : List (Item × NatSet)} {item : Item} :
    item ∈ (items.addAll entries).cores ↔ item ∈ items.cores ∨ item ∈ entries.map Prod.fst := by
  rw [addAll]
  induction entries generalizing items with
  | nil => simp
  | cons entry rest ih =>
      rw [List.foldl_cons, ih, mem_cores_add, List.map_cons, List.mem_cons]
      tauto

theorem looks_addAll {items : ItemSet} {entries : List (Item × NatSet)} {item : Item}
    {t : TerminalId} :
    (items.addAll entries).Looks item t ↔
      items.Looks item t ∨ ∃ known, (item, known) ∈ entries ∧ t ∈ known := by
  rw [addAll]
  induction entries generalizing items with
  | nil => simp
  | cons entry rest ih =>
      obtain ⟨j, added⟩ := entry
      rw [List.foldl_cons, ih, looks_add]
      simp only [List.mem_cons, Prod.mk.injEq]
      constructor
      · rintro ((h | ⟨rfl, h⟩) | ⟨known, hmem, h⟩)
        · exact Or.inl h
        · exact Or.inr ⟨added, Or.inl ⟨rfl, rfl⟩, h⟩
        · exact Or.inr ⟨known, Or.inr hmem, h⟩
      · rintro (h | ⟨known, ⟨rfl, rfl⟩ | hmem, h⟩)
        · exact Or.inl (Or.inl h)
        · exact Or.inl (Or.inr ⟨rfl, h⟩)
        · exact Or.inr ⟨known, hmem, h⟩

theorem mem_cores_union {items others : ItemSet} {item : Item} :
    item ∈ (items ∪ others).cores ↔ item ∈ items.cores ∨ item ∈ others.cores :=
  mem_cores_addAll

theorem looks_union {items others : ItemSet} {item : Item} {t : TerminalId} :
    (items ∪ others).Looks item t ↔ items.Looks item t ∨ others.Looks item t := by
  have hothers : others.Looks item t ↔ ∃ known, (item, known) ∈ others.entries ∧ t ∈ known :=
    looks_iff_exists_mem
  rw [hothers]
  exact looks_addAll

theorem mem_cores_ofList {entries : List (Item × NatSet)} {item : Item} :
    item ∈ (ofList entries).cores ↔ item ∈ entries.map Prod.fst := by
  rw [ofList, mem_cores_addAll]
  simp

theorem looks_ofList {entries : List (Item × NatSet)} {item : Item} {t : TerminalId} :
    (ofList entries).Looks item t ↔ ∃ known, (item, known) ∈ entries ∧ t ∈ known := by
  rw [ofList, looks_addAll]
  simp

/-- Sets with the same items and the same lookaheads are equal. -/
theorem ext_of_looks {items others : ItemSet}
    (hcores : ∀ item, item ∈ items.cores ↔ item ∈ others.cores)
    (hlooks : ∀ item t, items.Looks item t ↔ others.Looks item t) : items = others := by
  refine ext fun item => ?_
  cases h : items.lookaheads? item with
  | none =>
      cases h' : others.lookaheads? item with
      | none => rfl
      | some known =>
          obtain ⟨known', hknown'⟩ :=
            mem_cores_iff.mp ((hcores item).mpr (mem_cores_iff.mpr ⟨known, h'⟩))
          rw [h] at hknown'
          contradiction
  | some known =>
      obtain ⟨known', h'⟩ := mem_cores_iff.mp ((hcores item).mp (mem_cores_iff.mpr ⟨known, h⟩))
      rw [h', Option.some.injEq]
      refine NatSet.ext fun t => ?_
      simpa [Looks, h, h'] using hlooks item t

/-- Sets with the same items list them alike. -/
theorem cores_eq_of_mem_iff {items others : ItemSet}
    (h : ∀ item, item ∈ items.cores ↔ item ∈ others.cores) : items.cores = others.cores :=
  items.ascending.eq_of_mem_iff others.ascending h

/-! ## Inclusion -/

/-- A set is included in another one that has its items with their lookaheads. -/
instance : LE ItemSet :=
  ⟨fun items others => (∀ item ∈ items.cores, item ∈ others.cores) ∧
    ∀ item t, items.Looks item t → others.Looks item t⟩

instance : PartialOrder ItemSet where
  le_refl _ := ⟨fun _ h => h, fun _ _ h => h⟩
  le_trans _ _ _ h h' :=
    ⟨fun item hitem => h'.1 item (h.1 item hitem), fun item t ht => h'.2 item t (h.2 item t ht)⟩
  le_antisymm _ _ h h' := ext_of_looks (fun item => ⟨h.1 item, h'.1 item⟩)
    fun item t => ⟨h.2 item t, h'.2 item t⟩

theorem le_addAll (items : ItemSet) (entries : List (Item × NatSet)) :
    items ≤ items.addAll entries :=
  ⟨fun _ h => mem_cores_addAll.mpr (Or.inl h), fun _ _ h => looks_addAll.mpr (Or.inl h)⟩

end ItemSet

/-- What a set can say about an item: that it has the item, or a lookahead of it. -/
def Grammar.SaysOf (items : ItemSet) : Item × Option TerminalId → Prop
  | (item, none) => item ∈ items.cores
  | (item, some t) => items.Looks item t

/-- A set is included in another one that says all that it says. -/
theorem ItemSet.le_iff_saysOf {items others : ItemSet} :
    items ≤ others ↔ ∀ entry, Grammar.SaysOf items entry → Grammar.SaysOf others entry := by
  constructor
  · rintro ⟨hcores, hlooks⟩ ⟨item, option⟩ hsaid
    cases option with
    | none => exact hcores item hsaid
    | some t => exact hlooks item t hsaid
  · intro h
    exact ⟨fun item => h (item, none), fun item t => h (item, some t)⟩

end GrammarAnalysis

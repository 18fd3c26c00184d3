import GrammarAnalysis.Collections.NatSet
import GrammarAnalysis.Item.Basic
import GrammarAnalysis.Iteration.Reports

/-!
# Sets of items with lookaheads

A set of items lists each item once, in ascending order, together with the set
of its lookaheads, which may be empty.  Two sets with the same items and the
same lookaheads are equal (`ext`), so that states can be told apart by their
items.
-/

namespace GrammarAnalysis

/-- A set of items, each with its lookaheads. -/
structure ItemSet where
  entries : List (Item × NatSet)
  ascending : (entries.map Prod.fst).Pairwise (· < ·)
deriving DecidableEq

namespace ItemSet

/-- Adds lookaheads to an item of an ascending list, which is put in if it is new. -/
def place (item : Item) (added : NatSet) : List (Item × NatSet) → List (Item × NatSet)
  | [] => [(item, added)]
  | (other, known) :: rest =>
    if item < other then (item, added) :: (other, known) :: rest
    else if item = other then (other, known ∪ added) :: rest
    else (other, known) :: place item added rest

theorem mem_map_fst_place {item j : Item} {added : NatSet} {entries : List (Item × NatSet)} :
    j ∈ (place item added entries).map Prod.fst ↔ j = item ∨ j ∈ entries.map Prod.fst := by
  induction entries with
  | nil => simp [place]
  | cons entry rest ih =>
    obtain ⟨other, known⟩ := entry
    simp only [place]
    split
    · simp
    · split
      · next h => subst h; simp
      · simp only [List.map_cons, List.mem_cons, ih]
        constructor
        · rintro (h | h | h) <;> simp [h]
        · rintro (h | h | h) <;> simp [h]

theorem pairwise_place {item : Item} {added : NatSet} {entries : List (Item × NatSet)}
    (h : (entries.map Prod.fst).Pairwise (· < ·)) :
    ((place item added entries).map Prod.fst).Pairwise (· < ·) := by
  induction entries with
  | nil => simp [place]
  | cons entry rest ih =>
    obtain ⟨other, known⟩ := entry
    rw [List.map_cons, List.pairwise_cons] at h
    simp only [place]
    split
    · next hlt =>
      refine List.pairwise_cons.2 ⟨?_, List.pairwise_cons.2 h⟩
      intro j hj
      rcases List.mem_cons.1 hj with rfl | hj
      · exact hlt
      · exact Item.lt_trans hlt (h.1 j hj)
    · split
      · exact List.pairwise_cons.2 h
      · next hlt hne =>
        refine List.pairwise_cons.2 ⟨?_, ih h.2⟩
        intro j hj
        rcases mem_map_fst_place.1 hj with rfl | hj
        · exact Item.lt_of_not_lt hlt hne
        · exact h.1 j hj

/-- The set without items. -/
def empty : ItemSet := ⟨[], by simp⟩

instance : EmptyCollection ItemSet := ⟨empty⟩

instance : Inhabited ItemSet := ⟨∅⟩

/-- Adds an item with lookaheads; those of an item that is there already are kept. -/
def add (items : ItemSet) (item : Item) (lookaheads : NatSet) : ItemSet :=
  ⟨place item lookaheads items.entries, pairwise_place items.ascending⟩

/-- Adds the entries in turn. -/
def addAll (items : ItemSet) (entries : List (Item × NatSet)) : ItemSet :=
  entries.foldl (fun items entry => items.add entry.1 entry.2) items

/-- The set of the listed items, with the lookaheads of equal items united. -/
def ofList (entries : List (Item × NatSet)) : ItemSet := (∅ : ItemSet).addAll entries

/-- The union of two sets. -/
def union (items others : ItemSet) : ItemSet := items.addAll others.entries

instance : Union ItemSet := ⟨union⟩

/-- The items without their lookaheads, in ascending order. -/
def cores (items : ItemSet) : List Item := items.entries.map Prod.fst

/-- The lookaheads listed with an item. -/
def find (item : Item) : List (Item × NatSet) → Option NatSet
  | [] => none
  | (other, known) :: rest => if other = item then some known else find item rest

/-- The lookaheads of an item, if it is in the set. -/
def lookaheads? (items : ItemSet) (item : Item) : Option NatSet := find item items.entries

/-- Adds an item with lookaheads, and reports whether the item or one of the lookaheads
is new. -/
def update (items : ItemSet) (item : Item) (lookaheads : NatSet) : ItemSet × Bool :=
  match items.lookaheads? item with
  | none => (items.add item lookaheads, true)
  | some known =>
    (items.add item lookaheads, (applyReporting NatSet.insertNew lookaheads.toList known).2)

theorem find_eq_some_iff {item : Item} {known : NatSet} {entries : List (Item × NatSet)}
    (h : (entries.map Prod.fst).Pairwise (· < ·)) :
    find item entries = some known ↔ (item, known) ∈ entries := by
  induction entries with
  | nil => simp [find]
  | cons entry rest ih =>
    obtain ⟨other, set⟩ := entry
    rw [List.map_cons, List.pairwise_cons] at h
    simp only [find]
    split
    · next hi =>
      subst hi
      constructor
      · intro hk
        simp at hk
        simp [hk]
      · intro hm
        rcases List.mem_cons.1 hm with hm | hm
        · simp at hm
          simp [hm]
        · exact absurd (h.1 _ (List.mem_map_of_mem (f := Prod.fst) hm)) (Item.lt_irrefl other)
    · next hi =>
      have hi' : ¬ item = other := fun e => hi e.symm
      simp [ih h.2, hi']

/-- Looking an item up finds exactly the listed entries. -/
theorem lookaheads?_eq_some_iff {items : ItemSet} {item : Item} {known : NatSet} :
    items.lookaheads? item = some known ↔ (item, known) ∈ items.entries :=
  find_eq_some_iff items.ascending

/-- An item below all listed ones is not found. -/
theorem find_eq_none {item : Item} {entries : List (Item × NatSet)}
    (h : ∀ j ∈ entries.map Prod.fst, item < j) : find item entries = none := by
  induction entries with
  | nil => rfl
  | cons entry rest ih =>
    obtain ⟨other, known⟩ := entry
    rw [List.map_cons, List.forall_mem_cons] at h
    have hne : ¬ other = item := fun e => absurd (e ▸ h.1) (Item.lt_irrefl item)
    rw [find, if_neg hne, ih h.2]

theorem find_place (item j : Item) (added : NatSet) {entries : List (Item × NatSet)}
    (h : (entries.map Prod.fst).Pairwise (· < ·)) :
    find j (place item added entries) =
      if j = item then
        some (match find item entries with
          | some known => known ∪ added
          | none => added)
      else find j entries := by
  induction entries with
  | nil =>
    by_cases hj : j = item
    · subst hj; simp [place, find]
    · have hj' : ¬ item = j := fun e => hj e.symm
      simp [place, find, hj, hj']
  | cons entry rest ih =>
    obtain ⟨other, known⟩ := entry
    rw [List.map_cons, List.pairwise_cons] at h
    simp only [place]
    split
    · next hlt =>
      have hno : find item ((other, known) :: rest) = none :=
        find_eq_none (List.forall_mem_cons.2 ⟨hlt, fun j hj => Item.lt_trans hlt (h.1 j hj)⟩)
      by_cases hj : j = item
      · subst hj
        rw [hno, if_pos rfl, find, if_pos rfl]
      · have hj' : ¬ item = j := fun e => hj e.symm
        rw [find, if_neg hj', if_neg hj]
    · split
      · next heq =>
        subst heq
        by_cases hj : j = item
        · subst hj; simp [find]
        · have hj' : ¬ item = j := fun e => hj e.symm
          simp [find, hj, hj']
      · next hne =>
        have hne' : ¬ other = item := fun e => hne e.symm
        simp only [find, ih h.2, hne', if_false]
        by_cases hj : other = j
        · subst hj
          simp [hne']
        · simp [hj]

@[simp] theorem lookaheads?_add (items : ItemSet) (item j : Item) (added : NatSet) :
    (items.add item added).lookaheads? j =
      if j = item then
        some (match items.lookaheads? item with
          | some known => known ∪ added
          | none => added)
      else items.lookaheads? j :=
  find_place item j added items.ascending

theorem pairwise_fst_eq_of_mem_iff {as bs : List (Item × NatSet)}
    (ha : (as.map Prod.fst).Pairwise (· < ·)) (hb : (bs.map Prod.fst).Pairwise (· < ·))
    (h : ∀ entry, entry ∈ as ↔ entry ∈ bs) : as = bs := by
  induction as generalizing bs with
  | nil =>
    cases bs with
    | nil => rfl
    | cons b bs => simpa using h b
  | cons a as ih =>
    cases bs with
    | nil => simpa using h a
    | cons b bs =>
      rw [List.map_cons, List.pairwise_cons] at ha hb
      have below : ∀ {x y : Item × NatSet} {ys : List (Item × NatSet)},
          (∀ j ∈ ys.map Prod.fst, y.1 < j) → x ∈ ys → y.1 < x.1 :=
        fun hy hx => hy _ (List.mem_map_of_mem hx)
      have hab : a = b := by
        rcases List.mem_cons.1 ((h a).1 (by simp)) with h1 | h1
        · exact h1
        · rcases List.mem_cons.1 ((h b).2 (by simp)) with h2 | h2
          · exact h2.symm
          · exact absurd (Item.lt_trans (below hb.1 h1) (below ha.1 h2)) (Item.lt_irrefl _)
      subst hab
      congr 1
      refine ih ha.2 hb.2 fun entry => ?_
      constructor
      · intro hn
        rcases List.mem_cons.1 ((h entry).1 (by simp [hn])) with rfl | h1
        · exact absurd (below ha.1 hn) (Item.lt_irrefl _)
        · exact h1
      · intro hn
        rcases List.mem_cons.1 ((h entry).2 (by simp [hn])) with rfl | h1
        · exact absurd (below hb.1 hn) (Item.lt_irrefl _)
        · exact h1

theorem ext {items others : ItemSet}
    (h : ∀ item, items.lookaheads? item = others.lookaheads? item) : items = others := by
  cases items with
  | mk as ha =>
    cases others with
    | mk bs hb =>
      have hab : as = bs := by
        refine pairwise_fst_eq_of_mem_iff ha hb fun entry => ?_
        obtain ⟨item, known⟩ := entry
        rw [← find_eq_some_iff ha, ← find_eq_some_iff hb]
        have := h item
        simp only [lookaheads?] at this
        rw [this]
      subst hab
      rfl

end ItemSet

end GrammarAnalysis

/-!
# Maps that remember the order of insertion

Symbols, rules and table cells are listed in the order in which they were
first mentioned.  An ordered map is the list of its entries, with pairwise
distinct keys.  Writing to a key that is present keeps the place of the key,
and removing a key closes the gap.
-/

namespace GrammarAnalysis

/-- A finite map listed in the order in which its keys were inserted. -/
structure OrderedMap (κ β : Type) where
  entries : List (κ × β)
  nodup : (entries.map Prod.fst).Nodup
deriving DecidableEq

namespace OrderedMap

variable {κ β : Type}

/-- The map without entries. -/
def empty : OrderedMap κ β := ⟨[], by simp⟩

instance : EmptyCollection (OrderedMap κ β) := ⟨empty⟩

instance : Inhabited (OrderedMap κ β) := ⟨∅⟩

/-- The keys, in order. -/
def keys (m : OrderedMap κ β) : List κ := m.entries.map Prod.fst

/-- The values, in the order of their keys. -/
def values (m : OrderedMap κ β) : List β := m.entries.map Prod.snd

/-- The number of entries. -/
def size (m : OrderedMap κ β) : Nat := m.entries.length

/-- The entries whose keys satisfy `keep`, in the same order. -/
def filterKeys (keep : κ → Bool) (m : OrderedMap κ β) : OrderedMap κ β :=
  ⟨m.entries.filter fun entry => keep entry.1,
    m.nodup.sublist (List.filter_sublist.map Prod.fst)⟩

/-- The entries that satisfy `keep`, in the same order. -/
def filter (keep : κ → β → Bool) (m : OrderedMap κ β) : OrderedMap κ β :=
  ⟨m.entries.filter fun entry => keep entry.1 entry.2,
    m.nodup.sublist (List.filter_sublist.map Prod.fst)⟩

variable [DecidableEq κ]

/-- The value listed under `k`. -/
def find (k : κ) : List (κ × β) → Option β
  | [] => none
  | (k', v) :: rest => if k' = k then some v else find k rest

/-- The value of a key. -/
def get? (m : OrderedMap κ β) (k : κ) : Option β := find k m.entries

/-- Whether the key is present. -/
def contains (m : OrderedMap κ β) (k : κ) : Bool := m.keys.contains k

/-- Replaces the value `v` of `k` by `f (some v)`; a missing key is appended
with the value `f none`. -/
def place (k : κ) (f : Option β → β) : List (κ × β) → List (κ × β)
  | [] => [(k, f none)]
  | (k', v) :: rest => if k' = k then (k', f (some v)) :: rest else (k', v) :: place k f rest

theorem map_fst_place (k : κ) (f : Option β → β) (entries : List (κ × β)) :
    (place k f entries).map Prod.fst =
      if k ∈ entries.map Prod.fst then entries.map Prod.fst else entries.map Prod.fst ++ [k] := by
  induction entries with
  | nil => simp [place]
  | cons entry rest ih =>
    obtain ⟨k', v⟩ := entry
    simp only [place]
    split
    · next h => simp [h]
    · next h =>
      have hne : ¬ k = k' := fun e => h e.symm
      simp only [List.map_cons, ih, List.mem_cons, hne, false_or]
      split <;> simp

theorem nodup_place (k : κ) (f : Option β → β) {entries : List (κ × β)}
    (h : (entries.map Prod.fst).Nodup) : ((place k f entries).map Prod.fst).Nodup := by
  rw [map_fst_place]
  split
  · exact h
  · next hk =>
    refine List.nodup_append.2 ⟨h, by simp, ?_⟩
    intro a ha b hb hab
    rw [List.mem_singleton] at hb
    subst hb
    subst hab
    exact hk ha

/-- Changes the value of `k` by `f`, which is given the present value, or
`none` if the key is new; a new key goes to the end. -/
def upsert (m : OrderedMap κ β) (k : κ) (f : Option β → β) : OrderedMap κ β :=
  ⟨place k f m.entries, nodup_place k f m.nodup⟩

/-- Changes the value of `k`, which is `∅` if the key is new, by a step that reports
changes. -/
def updateEntry [EmptyCollection β] (m : OrderedMap κ β) (k : κ) (f : β → β × Bool) :
    OrderedMap κ β × Bool :=
  (m.upsert k fun v => (f (v.getD ∅)).1, (f ((m.get? k).getD ∅)).2)

/-- Writes `v` under `k`. -/
def insert (m : OrderedMap κ β) (k : κ) (v : β) : OrderedMap κ β := m.upsert k fun _ => v

/-- Removes `k`. -/
def erase (m : OrderedMap κ β) (k : κ) : OrderedMap κ β := m.filterKeys (· ≠ k)

/-- The map of the listed entries; of two entries with one key the later one counts. -/
def ofList (entries : List (κ × β)) : OrderedMap κ β :=
  entries.foldl (fun m entry => m.insert entry.1 entry.2) ∅

/-- The values listed under each key, in order, the keys in the order of first mention. -/
def group (entries : List (κ × β)) : OrderedMap κ (List β) :=
  entries.foldl (fun m entry => m.upsert entry.1 fun vs => vs.getD [] ++ [entry.2]) ∅

@[simp] theorem get?_empty (k : κ) : (∅ : OrderedMap κ β).get? k = none := rfl

theorem find_place (k j : κ) (f : Option β → β) (entries : List (κ × β)) :
    find j (place k f entries) = if j = k then some (f (find k entries)) else find j entries := by
  induction entries with
  | nil =>
    simp only [place, find]
    by_cases h : k = j
    · simp [h]
    · have h' : ¬ j = k := fun e => h e.symm
      simp [h, h']
  | cons entry rest ih =>
    obtain ⟨k', v⟩ := entry
    simp only [place]
    by_cases hk : k' = k
    · subst hk
      by_cases hj : k' = j
      · subst hj; simp [find]
      · have hj' : ¬ j = k' := fun e => hj e.symm
        simp [find, hj, hj']
    · simp only [hk, if_false, find, ih]
      by_cases hj : k' = j
      · subst hj
        simp [hk]
      · simp [hj]

@[simp] theorem get?_upsert (m : OrderedMap κ β) (k j : κ) (f : Option β → β) :
    (m.upsert k f).get? j = if j = k then some (f (m.get? k)) else m.get? j :=
  find_place k j f m.entries

@[simp] theorem get?_insert (m : OrderedMap κ β) (k j : κ) (v : β) :
    (m.insert k v).get? j = if j = k then some v else m.get? j :=
  get?_upsert m k j _

theorem keys_upsert (m : OrderedMap κ β) (k : κ) (f : Option β → β) :
    (m.upsert k f).keys = if k ∈ m.keys then m.keys else m.keys ++ [k] :=
  map_fst_place k f m.entries

theorem find_eq_some_iff {k : κ} {v : β} {entries : List (κ × β)}
    (h : (entries.map Prod.fst).Nodup) : find k entries = some v ↔ (k, v) ∈ entries := by
  induction entries with
  | nil => simp [find]
  | cons entry rest ih =>
    obtain ⟨k', v'⟩ := entry
    rw [List.map_cons, List.nodup_cons] at h
    simp only [find]
    split
    · next hk =>
      subst hk
      constructor
      · intro hv
        simp at hv
        simp [hv]
      · intro hm
        rcases List.mem_cons.1 hm with hm | hm
        · simp at hm
          simp [hm]
        · exact absurd (List.mem_map_of_mem (f := Prod.fst) hm) h.1
    · next hk =>
      have hk' : ¬ k = k' := fun e => hk e.symm
      simp [ih h.2, hk']

/-- Looking a key up finds exactly the listed entries. -/
theorem get?_eq_some_iff {m : OrderedMap κ β} {k : κ} {v : β} :
    m.get? k = some v ↔ (k, v) ∈ m.entries :=
  find_eq_some_iff m.nodup

end OrderedMap

end GrammarAnalysis

import GrammarAnalysis.Collections.OrderedMap
import GrammarAnalysis.Collections.Total

/-!
# Entries, keys and weights of ordered maps

The entries of an ordered map are found again by their keys, and a map that is
made from entries with distinct keys lists exactly these entries.  Iterations
over maps end because every change of an entry makes the map heavier.
-/

namespace GrammarAnalysis

/-- The total of equal weights. -/
theorem totalBy_eq_mul {α : Type} {weight : α → Nat} {c : Nat} {as : List α}
    (h : ∀ a ∈ as, weight a = c) : totalBy weight as = as.length * c := by
  induction as with
  | nil => simp
  | cons a rest ih =>
      have hrest := ih fun b hb => h b (List.mem_cons_of_mem _ hb)
      rw [totalBy_cons, h a (by simp), hrest, List.length_cons, Nat.succ_mul]
      omega

theorem totalBy_le_totalBy {α : Type} {weight weight' : α → Nat} {as : List α}
    (h : ∀ a ∈ as, weight a ≤ weight' a) : totalBy weight as ≤ totalBy weight' as := by
  induction as with
  | nil => exact Nat.le_refl _
  | cons a as ih =>
      rw [List.forall_mem_cons] at h
      exact Nat.add_le_add h.1 (ih h.2)

namespace OrderedMap

variable {κ β : Type}

theorem mem_keys_iff_exists_mem {m : OrderedMap κ β} {k : κ} :
    k ∈ m.keys ↔ ∃ v, (k, v) ∈ m.entries := by
  simp [keys]

theorem length_keys (m : OrderedMap κ β) : m.keys.length = m.size := by
  simp [keys, size]

theorem keys_eq_singleton {m : OrderedMap κ β} {k : κ} (hk : k ∈ m.keys)
    (h : ∀ j ∈ m.keys, j = k) : m.keys = [k] := by
  obtain ⟨first, rest, hkeys⟩ := List.exists_cons_of_ne_nil (List.ne_nil_of_mem hk)
  have hnodup : (first :: rest).Nodup := hkeys ▸ m.nodup
  rw [hkeys, List.forall_mem_cons] at h
  cases rest with
  | nil => rw [hkeys, h.1]
  | cons second rest =>
      have hsame : second = first := (h.2 second (by simp)).trans h.1.symm
      exact absurd (by simp [hsame]) (List.nodup_cons.mp hnodup).1

variable [DecidableEq κ]

theorem mem_keys_iff {m : OrderedMap κ β} {k : κ} :
    k ∈ m.keys ↔ ∃ v, m.get? k = some v := by
  simp only [mem_keys_iff_exists_mem, get?_eq_some_iff]

theorem mem_keys_of_get? {m : OrderedMap κ β} {k : κ} {v : β}
    (h : m.get? k = some v) : k ∈ m.keys :=
  mem_keys_iff.mpr ⟨v, h⟩

theorem contains_iff {m : OrderedMap κ β} {k : κ} :
    m.contains k = true ↔ k ∈ m.keys := by
  simp [contains]

theorem mem_values_iff {m : OrderedMap κ β} {v : β} :
    v ∈ m.values ↔ ∃ k, m.get? k = some v := by
  simp [values, get?_eq_some_iff]

theorem mem_values_of_get? {m : OrderedMap κ β} {k : κ} {v : β}
    (h : m.get? k = some v) : v ∈ m.values :=
  mem_values_iff.mpr ⟨k, h⟩

/-- A map lists its keys with their values. -/
theorem entries_eq_map_keys {m : OrderedMap κ β}
    {value : κ → β} (h : ∀ k ∈ m.keys, m.get? k = some (value k)) :
    m.entries = m.keys.map fun k => (k, value k) := by
  rw [keys, List.map_map]
  refine (List.map_id m.entries).symm.trans (List.map_congr_left fun entry hentry => ?_)
  have hget := h entry.1 (List.mem_map_of_mem hentry)
  rw [get?_eq_some_iff.mpr hentry] at hget
  exact Prod.ext rfl (Option.some.inj hget)

/-- Maps with the same keys and the same values under them are equal. -/
theorem eq_of_keys_eq {m m' : OrderedMap κ β} (hkeys : m.keys = m'.keys)
    (h : ∀ k v, m.get? k = some v → m'.get? k = some v) : m = m' := by
  have hlength : m.entries.length = m'.entries.length := by
    have := congrArg List.length hkeys
    rwa [length_keys, length_keys] at this
  have hentries : m.entries = m'.entries := by
    refine List.ext_getElem hlength fun i hi hi' => ?_
    have hkey : m.entries[i].1 = m'.entries[i].1 := by
      have := List.getElem_of_eq hkeys (by rwa [length_keys])
      simpa [keys] using this
    have hmem : (m.entries[i].1, m.entries[i].2) ∈ m.entries := List.getElem_mem hi
    have hmem' : (m'.entries[i].1, m'.entries[i].2) ∈ m'.entries := List.getElem_mem hi'
    have hget := h _ _ (get?_eq_some_iff.mpr hmem)
    rw [hkey, get?_eq_some_iff.mpr hmem'] at hget
    exact Prod.ext hkey (Option.some.inj hget).symm
  cases m
  cases m'
  simpa using hentries

/-- Changing a value to itself changes nothing. -/
theorem upsert_eq_self {m : OrderedMap κ β} {k : κ} {f : Option β → β} {v : β}
    (h : m.get? k = some v) (hf : f (some v) = v) : m.upsert k f = m := by
  apply eq_of_keys_eq
  · rw [keys_upsert, if_pos (mem_keys_of_get? h)]
  · intro j w hw
    rw [get?_upsert] at hw
    split at hw
    · next hj =>
      rw [h, hf] at hw
      rw [hj, h, hw]
    · exact hw

/-! ## Adding entries -/

/-- A key that is not listed in front is placed behind. -/
theorem place_append_of_not_mem (k : κ) (f : Option β → β) {front : List (κ × β)}
    (h : k ∉ front.map Prod.fst) (entries : List (κ × β)) :
    place k f (front ++ entries) = front ++ place k f entries := by
  induction front with
  | nil => rfl
  | cons entry rest ih =>
      obtain ⟨k', v⟩ := entry
      rw [List.map_cons, List.mem_cons, not_or] at h
      have hne : ¬ k' = k := fun e => h.1 e.symm
      simp [place, hne, ih h.2]

theorem place_of_not_mem (k : κ) (f : Option β → β) {entries : List (κ × β)}
    (h : k ∉ entries.map Prod.fst) : place k f entries = entries ++ [(k, f none)] := by
  simpa [place] using place_append_of_not_mem k f h []

/-- Renaming the keys, each to another one, changes nothing but the keys. -/
theorem place_map_keys {κ' : Type} [DecidableEq κ'] {rename : κ → κ'}
    (hrename : Function.Injective rename) (k : κ) (f : Option β → β) (entries : List (κ × β)) :
    place (rename k) f (entries.map fun entry => (rename entry.1, entry.2)) =
      (place k f entries).map fun entry => (rename entry.1, entry.2) := by
  induction entries with
  | nil => rfl
  | cons entry rest ih =>
      obtain ⟨k', v⟩ := entry
      simp only [List.map_cons, place, hrename.eq_iff, ih]
      split <;> rfl

theorem entries_insert_of_not_mem {m : OrderedMap κ β} {k : κ} (h : k ∉ m.keys) (v : β) :
    (m.insert k v).entries = m.entries ++ [(k, v)] :=
  place_of_not_mem k _ h

theorem keys_insert_of_not_mem {m : OrderedMap κ β} {k : κ} (h : k ∉ m.keys) (v : β) :
    (m.insert k v).keys = m.keys ++ [k] := by
  simp [keys, entries_insert_of_not_mem h]

theorem values_insert_of_not_mem {m : OrderedMap κ β} {k : κ} (h : k ∉ m.keys) (v : β) :
    (m.insert k v).values = m.values ++ [v] := by
  simp [values, entries_insert_of_not_mem h]

theorem entries_foldl_insert {entries : List (κ × β)} {m : OrderedMap κ β}
    (h : (m.keys ++ entries.map Prod.fst).Nodup) :
    (entries.foldl (fun m entry => m.insert entry.1 entry.2) m).entries =
      m.entries ++ entries := by
  induction entries generalizing m with
  | nil => simp
  | cons entry rest ih =>
      have hfresh : entry.1 ∉ m.keys := by
        intro hk
        exact (List.nodup_append.mp h).2.2 entry.1 hk entry.1 (by simp) rfl
      rw [List.foldl_cons, ih, entries_insert_of_not_mem hfresh]
      · simp
      · rw [keys_insert_of_not_mem hfresh]
        simpa using h

/-- A map made from entries with distinct keys lists these entries. -/
theorem entries_ofList {entries : List (κ × β)} (h : (entries.map Prod.fst).Nodup) :
    (ofList entries).entries = entries := by
  have := entries_foldl_insert (m := (∅ : OrderedMap κ β))
    (by simpa [keys, EmptyCollection.emptyCollection, empty] using h)
  simpa [ofList, EmptyCollection.emptyCollection, empty] using this

theorem get?_ofList {entries : List (κ × β)} (h : (entries.map Prod.fst).Nodup)
    {k : κ} {v : β} : (ofList entries).get? k = some v ↔ (k, v) ∈ entries := by
  rw [get?_eq_some_iff, entries_ofList h]

theorem keys_ofList {entries : List (κ × β)} (h : (entries.map Prod.fst).Nodup) :
    (ofList entries).keys = entries.map Prod.fst := by
  rw [keys, entries_ofList h]

/-- Of the entries that are written into a map, each with another key, the last one counts. -/
theorem get?_foldl_insert {entries : List (κ × β)} (h : (entries.map Prod.fst).Nodup)
    {m : OrderedMap κ β} {k : κ} {v : β} :
    (entries.foldl (fun m entry => m.insert entry.1 entry.2) m).get? k = some v ↔
      (k, v) ∈ entries ∨ k ∉ entries.map Prod.fst ∧ m.get? k = some v := by
  induction entries generalizing m with
  | nil => simp
  | cons entry rest ih =>
      obtain ⟨j, w⟩ := entry
      rw [List.map_cons, List.nodup_cons] at h
      rw [List.foldl_cons, ih h.2, get?_insert, List.mem_cons, List.map_cons, List.mem_cons,
        not_or, Prod.mk.injEq]
      by_cases hk : k = j
      · have hrest : (k, v) ∉ rest := fun hmem =>
          h.1 (List.mem_map.mpr ⟨(k, v), hmem, hk⟩)
        simp [hk, h.1, hk ▸ hrest, eq_comm]
      · simp [hk]

theorem mem_keys_insert {m : OrderedMap κ β} {j k : κ} {v : β} :
    k ∈ (m.insert j v).keys ↔ k = j ∨ k ∈ m.keys := by
  simp only [mem_keys_iff, get?_insert]
  by_cases h : k = j <;> simp [h]

theorem mem_keys_foldl_insert {entries : List (κ × β)} {m : OrderedMap κ β} {k : κ} :
    k ∈ (entries.foldl (fun m entry => m.insert entry.1 entry.2) m).keys ↔
      k ∈ m.keys ∨ k ∈ entries.map Prod.fst := by
  induction entries generalizing m with
  | nil => simp
  | cons entry rest ih =>
      rw [List.foldl_cons, ih, mem_keys_insert, List.map_cons, List.mem_cons, or_assoc,
        or_left_comm]

theorem mem_keys_ofList {entries : List (κ × β)} {k : κ} :
    k ∈ (ofList entries).keys ↔ k ∈ entries.map Prod.fst := by
  rw [ofList, mem_keys_foldl_insert]
  exact or_iff_right List.not_mem_nil

/-! ## Removing entries -/

theorem get?_filterKeys (keep : κ → Bool) (m : OrderedMap κ β) (k : κ) :
    (m.filterKeys keep).get? k = if keep k then m.get? k else none := by
  ext v
  rw [get?_eq_some_iff, filterKeys, List.mem_filter]
  split
  · next hk => simp [hk, get?_eq_some_iff]
  · next hk => simp [hk]

@[simp] theorem get?_erase (m : OrderedMap κ β) (k j : κ) :
    (m.erase k).get? j = if j = k then none else m.get? j := by
  rw [erase, get?_filterKeys]
  by_cases h : j = k <;> simp [h]

/-! ## Grouped values -/

theorem exists_mem_place {β : Type} {k j : κ} {v w : β} {entries : List (κ × List β)} :
    (∃ vs, (j, vs) ∈ place k (fun vs => vs.getD [] ++ [v]) entries ∧ w ∈ vs) ↔
      (∃ vs, (j, vs) ∈ entries ∧ w ∈ vs) ∨ j = k ∧ w = v := by
  induction entries with
  | nil => simp [place, and_assoc]
  | cons entry rest ih =>
      obtain ⟨i, us⟩ := entry
      simp only [place]
      split
      · next hi =>
        subst hi
        simp only [List.mem_cons, Prod.mk.injEq, Option.getD_some, or_and_right, exists_or,
          and_assoc, exists_and_left, exists_eq_left, List.mem_append, List.not_mem_nil, or_false]
        rw [and_or_left, or_right_comm]
      · simp only [List.mem_cons, Prod.mk.injEq, or_and_right, exists_or, ih, or_assoc]

/-- The groups hold exactly the values that are listed with their keys. -/
theorem exists_mem_group {β : Type} {entries : List (κ × β)} {k : κ} {v : β} :
    (∃ vs, (k, vs) ∈ (group entries).entries ∧ v ∈ vs) ↔ (k, v) ∈ entries := by
  have hfold : ∀ (entries : List (κ × β)) (m : OrderedMap κ (List β)),
      (∃ vs, (k, vs) ∈ (entries.foldl (fun m entry => m.upsert entry.1 fun vs =>
          vs.getD [] ++ [entry.2]) m).entries ∧ v ∈ vs) ↔
        (∃ vs, (k, vs) ∈ m.entries ∧ v ∈ vs) ∨ (k, v) ∈ entries := by
    intro entries
    induction entries with
    | nil => simp
    | cons entry rest ih =>
        intro m
        rw [List.foldl_cons, ih, upsert, exists_mem_place, List.mem_cons, Prod.ext_iff, or_assoc]
  rw [group, hfold]
  refine or_iff_right ?_
  rintro ⟨vs, h, -⟩
  exact List.not_mem_nil h

theorem totalBy_place {β : Type} {w : β → Nat} {k : κ} {v : β} (entries : List (κ × List β)) :
    totalBy (fun entry => totalBy w entry.2) (place k (fun vs => vs.getD [] ++ [v]) entries) =
      totalBy (fun entry => totalBy w entry.2) entries + w v := by
  induction entries with
  | nil => simp [place]
  | cons entry rest ih =>
      obtain ⟨i, us⟩ := entry
      simp only [place]
      split
      · simp only [totalBy_cons, Option.getD_some, totalBy_append, totalBy_nil]
        omega
      · simp only [totalBy_cons, ih]
        omega

/-- Grouping keeps the total weight of the values. -/
theorem totalBy_group {β : Type} (w : β → Nat) (entries : List (κ × β)) :
    totalBy (fun entry => totalBy w entry.2) (group entries).entries =
      totalBy (fun entry => w entry.2) entries := by
  have hfold : ∀ (entries : List (κ × β)) (m : OrderedMap κ (List β)),
      totalBy (fun entry => totalBy w entry.2) (entries.foldl (fun m entry =>
          m.upsert entry.1 fun vs => vs.getD [] ++ [entry.2]) m).entries =
        totalBy (fun entry => totalBy w entry.2) m.entries +
          totalBy (fun entry => w entry.2) entries := by
    intro entries
    induction entries with
    | nil => simp
    | cons entry rest ih =>
        intro m
        rw [List.foldl_cons, ih, upsert, totalBy_place, totalBy_cons, Nat.add_assoc]
  rw [group, hfold]
  exact Nat.zero_add _

/-! ## Weights -/

/-- The number of entries together with the weights of their values. -/
def weight (w : β → Nat) (m : OrderedMap κ β) : Nat :=
  totalBy (fun entry => 1 + w entry.2) m.entries

theorem place_eq_self_or_lighter {w : β → Nat} {k : κ} {f : Option β → β}
    (hf : ∀ v, f (some v) = v ∨ w v < w (f (some v))) (entries : List (κ × β)) :
    place k f entries = entries ∨
      totalBy (fun entry => 1 + w entry.2) entries <
        totalBy (fun entry => 1 + w entry.2) (place k f entries) := by
  induction entries with
  | nil =>
      right
      simp only [place, totalBy_nil, totalBy_cons]
      omega
  | cons entry rest ih =>
      obtain ⟨k', v⟩ := entry
      simp only [place]
      split
      · rcases hf v with hv | hv
        · left
          rw [hv]
        · right
          simp only [totalBy_cons]
          omega
      · rcases ih with hrest | hrest
        · left
          rw [hrest]
        · right
          simp only [totalBy_cons]
          omega

/-- If a change of a value makes it heavier, it makes the map heavier. -/
theorem upsert_eq_self_or_weight_lt {w : β → Nat} (m : OrderedMap κ β) (k : κ)
    {f : Option β → β} (hf : ∀ v, f (some v) = v ∨ w v < w (f (some v))) :
    m.upsert k f = m ∨ m.weight w < (m.upsert k f).weight w := by
  rcases place_eq_self_or_lighter (k := k) hf m.entries with h | h
  · left
    cases m
    simpa [upsert] using h
  · exact Or.inr h

omit [DecidableEq κ] in
/-- A limit for each key limits the weight of the map. -/
theorem weight_le_totalBy_keys {w : β → Nat} {m : OrderedMap κ β} {limit : κ → Nat}
    (h : ∀ k v, (k, v) ∈ m.entries → 1 + w v ≤ limit k) :
    m.weight w ≤ totalBy limit m.keys := by
  rw [weight, keys]
  generalize m.entries = entries at h
  induction entries with
  | nil => simp
  | cons entry rest ih =>
      have hrest := ih fun k v hkv => h k v (List.mem_cons_of_mem _ hkv)
      have hentry := h entry.1 entry.2 (by simp)
      simp only [totalBy_cons, List.map_cons]
      omega

end OrderedMap

end GrammarAnalysis

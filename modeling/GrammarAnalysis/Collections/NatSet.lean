/-!
# Finite sets of natural numbers

Sets of terminal numbers and of automaton states are printed in ascending
order and compared for equality, so a set is kept as its strictly ascending
list of members.  Two sets with the same members are then equal (`ext`).
-/

namespace GrammarAnalysis

/-- A finite set of natural numbers, listed in strictly ascending order. -/
structure NatSet where
  toList : List Nat
  ascending : toList.Pairwise (· < ·)
deriving DecidableEq

namespace NatSet

/-- Puts `n` into an ascending list, unless it is there already. -/
def insertAscending (n : Nat) : List Nat → List Nat
  | [] => [n]
  | m :: rest =>
    if n < m then n :: m :: rest
    else if n = m then m :: rest
    else m :: insertAscending n rest

theorem mem_insertAscending {n k : Nat} {ms : List Nat} :
    k ∈ insertAscending n ms ↔ k = n ∨ k ∈ ms := by
  induction ms with
  | nil => simp [insertAscending]
  | cons m rest ih =>
    simp only [insertAscending]
    split
    · simp
    · split
      · next h => subst h; simp
      · simp only [List.mem_cons, ih]
        constructor
        · rintro (h | h | h) <;> simp [h]
        · rintro (h | h | h) <;> simp [h]

theorem pairwise_insertAscending {n : Nat} {ms : List Nat}
    (h : ms.Pairwise (· < ·)) : (insertAscending n ms).Pairwise (· < ·) := by
  induction ms with
  | nil => simp [insertAscending]
  | cons m rest ih =>
    rw [List.pairwise_cons] at h
    simp only [insertAscending]
    split
    · next hn =>
      refine List.pairwise_cons.2 ⟨?_, List.pairwise_cons.2 h⟩
      intro k hk
      rcases List.mem_cons.1 hk with rfl | hk
      · exact hn
      · exact Nat.lt_trans hn (h.1 k hk)
    · split
      · exact List.pairwise_cons.2 h
      · next hn hne =>
        refine List.pairwise_cons.2 ⟨?_, ih h.2⟩
        intro k hk
        rcases mem_insertAscending.1 hk with rfl | hk
        · omega
        · exact h.1 k hk

instance : Membership Nat NatSet := ⟨fun s n => n ∈ s.toList⟩

instance (n : Nat) (s : NatSet) : Decidable (n ∈ s) :=
  inferInstanceAs (Decidable (n ∈ s.toList))

instance : EmptyCollection NatSet := ⟨⟨[], .nil⟩⟩

instance : Inhabited NatSet := ⟨∅⟩

@[simp] theorem mem_toList {n : Nat} {s : NatSet} : n ∈ s.toList ↔ n ∈ s := Iff.rfl

@[simp] theorem not_mem_empty (n : Nat) : ¬ n ∈ (∅ : NatSet) := List.not_mem_nil

@[simp] theorem toList_empty : (∅ : NatSet).toList = [] := rfl

/-- The set with `n` added. -/
def insert (n : Nat) (s : NatSet) : NatSet :=
  ⟨insertAscending n s.toList, pairwise_insertAscending s.ascending⟩

@[simp] theorem mem_insert {n k : Nat} {s : NatSet} : k ∈ s.insert n ↔ k = n ∨ k ∈ s :=
  mem_insertAscending

/-- The set of the members of `ns`. -/
def ofList (ns : List Nat) : NatSet := ns.foldl (fun s n => s.insert n) ∅

/-- The set whose only member is `n`. -/
def singleton (n : Nat) : NatSet := (∅ : NatSet).insert n

/-- The union of two sets. -/
def union (s t : NatSet) : NatSet := t.toList.foldl (fun s n => s.insert n) s

instance : Union NatSet := ⟨union⟩

theorem mem_foldl_insert {k : Nat} {ns : List Nat} {s : NatSet} :
    k ∈ ns.foldl (fun s n => s.insert n) s ↔ k ∈ s ∨ k ∈ ns := by
  induction ns generalizing s with
  | nil => simp
  | cons n rest ih =>
    rw [List.foldl_cons, ih, mem_insert, List.mem_cons]
    constructor
    · rintro ((h | h) | h) <;> simp [h]
    · rintro (h | h | h) <;> simp [h]

@[simp] theorem mem_union {k : Nat} {s t : NatSet} : k ∈ s ∪ t ↔ k ∈ s ∨ k ∈ t :=
  mem_foldl_insert

@[simp] theorem mem_ofList {k : Nat} {ns : List Nat} : k ∈ ofList ns ↔ k ∈ ns := by
  simp [ofList, mem_foldl_insert]

@[simp] theorem mem_singleton {k n : Nat} : k ∈ singleton n ↔ k = n := by
  simp [singleton]

/-- Two ascending lists with the same members are the same list. -/
theorem eq_of_mem_iff {as bs : List Nat} (ha : as.Pairwise (· < ·)) (hb : bs.Pairwise (· < ·))
    (h : ∀ n, n ∈ as ↔ n ∈ bs) : as = bs := by
  induction as generalizing bs with
  | nil =>
    cases bs with
    | nil => rfl
    | cons b bs => simpa using h b
  | cons a as ih =>
    cases bs with
    | nil => simpa using h a
    | cons b bs =>
      rw [List.pairwise_cons] at ha hb
      have hab : a = b := by
        rcases List.mem_cons.1 ((h a).1 (by simp)) with h1 | h1
        · exact h1
        · rcases List.mem_cons.1 ((h b).2 (by simp)) with h2 | h2
          · exact h2.symm
          · exact absurd (Nat.lt_trans (hb.1 a h1) (ha.1 b h2)) (Nat.lt_irrefl b)
      subst hab
      congr 1
      refine ih ha.2 hb.2 fun n => ?_
      constructor
      · intro hn
        rcases List.mem_cons.1 ((h n).1 (by simp [hn])) with rfl | h1
        · exact absurd (ha.1 n hn) (Nat.lt_irrefl n)
        · exact h1
      · intro hn
        rcases List.mem_cons.1 ((h n).2 (by simp [hn])) with rfl | h1
        · exact absurd (hb.1 n hn) (Nat.lt_irrefl n)
        · exact h1

theorem ext {s t : NatSet} (h : ∀ n, n ∈ s ↔ n ∈ t) : s = t := by
  cases s with
  | mk as ha =>
    cases t with
    | mk bs hb =>
      have hab : as = bs := eq_of_mem_iff ha hb h
      subst hab
      rfl

/-- Adds a member, and reports whether it is new. -/
def insertNew (s : NatSet) (n : Nat) : NatSet × Bool :=
  if n ∈ s then (s, false) else (s.insert n, true)

/-- Whether all members of the first set are members of the second one. -/
def isSubset (s t : NatSet) : Bool := s.toList.all (· ∈ t)

/-- Adds the members of another set, and reports whether one of them is new. -/
def update (s t : NatSet) : NatSet × Bool :=
  if t.isSubset s then (s, false) else (s ∪ t, true)

/-- Whether the set has no members. -/
def isEmpty (s : NatSet) : Bool := s.toList.isEmpty

/-- The number of members. -/
def size (s : NatSet) : Nat := s.toList.length

end NatSet

end GrammarAnalysis

import GrammarAnalysis.Proofs.Item.Closure
import GrammarAnalysis.Proofs.Iteration.Exploration
import GrammarAnalysis.Proofs.Iteration.Settling

/-!
# Closures and transitions pass by pass

The closure of a set of items can be computed by passes over the set until a pass
adds neither an item nor a lookahead.  The kernels that the set moves to can be
collected in one pass: each item that expects a symbol joins the kernel of that
symbol with its marker moved.  This lists the same kernels, in the same order, as
moving over one symbol after the other.
-/

namespace GrammarAnalysis

/-! ## Closures -/

namespace ItemSet

/-- The number of items together with their lookaheads. -/
def size (items : ItemSet) : Nat := totalBy (fun entry => 1 + entry.2.size) items.entries

theorem place_eq_self_or_lt (item : Item) (added : NatSet) (entries : List (Item × NatSet)) :
    place item added entries = entries ∨
      totalBy (fun entry => 1 + entry.2.size) entries <
        totalBy (fun entry => 1 + entry.2.size) (place item added entries) := by
  induction entries with
  | nil =>
      right
      simp only [place, totalBy_nil, totalBy_cons]
      omega
  | cons entry rest ih =>
      obtain ⟨other, known⟩ := entry
      simp only [place]
      split
      · right
        simp only [totalBy_cons]
        omega
      · split
        · rcases NatSet.union_eq_self_or_size_lt known added with h | h
          · left
            rw [h]
          · right
            simp only [totalBy_cons]
            omega
        · rcases ih with h | h
          · left
            rw [h]
          · right
            simp only [totalBy_cons]
            omega

/-- Adding an item changes nothing or makes the set larger. -/
theorem add_eq_self_or_size_lt (items : ItemSet) (item : Item) (added : NatSet) :
    items.add item added = items ∨ items.size < (items.add item added).size := by
  rcases place_eq_self_or_lt item added items.entries with h | h
  · left
    cases items
    simpa [add] using h
  · exact Or.inr h

/-- An item adds nothing to a set that has it with all its lookaheads. -/
theorem add_eq_self_iff {items : ItemSet} {item : Item} {added : NatSet} :
    items.add item added = items ↔
      ∃ known, items.lookaheads? item = some known ∧ known ∪ added = known := by
  constructor
  · intro h
    have hadded := lookaheads?_add items item item added
    rw [h, if_pos rfl] at hadded
    cases hknown : items.lookaheads? item with
    | none =>
        rw [hknown] at hadded
        contradiction
    | some known =>
        rw [hknown, Option.some.injEq] at hadded
        exact ⟨known, rfl, hadded.symm⟩
  · rintro ⟨known, hknown, hsame⟩
    refine ext fun j => ?_
    rw [lookaheads?_add]
    split
    · next hj => simp only [hj, hknown, hsame]
    · rfl

theorem fst_update (items : ItemSet) (item : Item) (added : NatSet) :
    (items.update item added).1 = items.add item added := by
  rw [update]
  split <;> rfl

theorem tellsGrowth_update (items : ItemSet) (item : Item) (added : NatSet) :
    TellsGrowth size items (items.update item added) := by
  refine .of_eq_self_or_lt ?_ ?_
  · rw [fst_update]
    exact items.add_eq_self_or_size_lt item added
  · rw [fst_update, ne_eq, add_eq_self_iff]
    cases hknown : items.lookaheads? item with
    | none => simp [update, hknown]
    | some known =>
        have hreport := tellsGrowth_applyReporting
          (fun set n (_ : n ∈ added.toList) => NatSet.tellsGrowth_insertNew set n) known
        have hunion : (applyReporting NatSet.insertNew added.toList known).1 = known ∪ added :=
          NatSet.fst_applyReporting_insertNew known added.toList
        have hsize := NatSet.union_eq_self_or_size_lt known added
        simp only [update, hknown, Option.some.injEq, exists_eq_left']
        rw [hreport.iff, hunion]
        refine ⟨fun hlt hsame => ?_, hsize.resolve_left⟩
        rw [hsame] at hlt
        exact absurd hlt (Nat.lt_irrefl _)

/-- It does not matter whether the lookaheads of an item are collected before they are added. -/
theorem addAll_upsert (items : ItemSet) (found : OrderedMap Item NatSet) (item : Item)
    (added : NatSet) :
    items.addAll (found.upsert item fun known => known.getD ∅ ∪ added).entries =
      (items.addAll found.entries).add item added := by
  have hkeys : ∀ j (found : OrderedMap Item NatSet),
      j ∈ found.entries.map Prod.fst ↔ ∃ known, found.get? j = some known :=
    fun j found => OrderedMap.mem_keys_iff
  refine ext_of_looks (fun j => ?_) fun j t => ?_
  · rw [mem_cores_add, mem_cores_addAll, mem_cores_addAll, hkeys, hkeys]
    by_cases hj : j = item <;> simp [hj]
  · rw [looks_add, looks_addAll, looks_addAll]
    simp only [← OrderedMap.get?_eq_some_iff, OrderedMap.get?_upsert]
    by_cases hj : j = item
    · subst hj
      cases hknown : found.get? j <;> simp [or_assoc]
    · simp [hj]

theorem addAll_foldl_upsert (items : ItemSet) (entries : List (Item × NatSet))
    (found : OrderedMap Item NatSet) :
    items.addAll (entries.foldl
        (fun found entry => found.upsert entry.1 fun known => known.getD ∅ ∪ entry.2)
        found).entries =
      (items.addAll found.entries).addAll entries := by
  induction entries generalizing found with
  | nil => rfl
  | cons entry rest ih =>
      rw [List.foldl_cons, ih, addAll_upsert]
      rfl

end ItemSet

namespace Grammar

variable {g : Grammar}

theorem fst_closurePass (g : Grammar) (first : FirstSets) (items : ItemSet) :
    (g.closurePass first items).1 = g.closureStep first items := by
  have hadded : (g.closurePass first items).1 =
      items.addAll (g.calledFor first items).entries :=
    fst_applyReporting (fun items entry _ => ItemSet.fst_update items entry.1 entry.2) items
  exact hadded.trans (items.addAll_foldl_upsert _ ∅)

/-- A round of the closure reports whether it has added an item or a lookahead. -/
theorem tellsGrowth_closurePass (g : Grammar) (first : FirstSets) (items : ItemSet) :
    TellsGrowth ItemSet.size items (g.closurePass first items) :=
  tellsGrowth_applyReporting (fun items entry _ => items.tellsGrowth_update entry.1 entry.2) items

/-- A round that adds nothing leaves the set as it is. -/
theorem closureStep_eq_self {first : FirstSets} {items : ItemSet}
    (hsize : (g.closureStep first items).size = items.size) : g.closureStep first items = items := by
  have hgrows : g.closureStep first items = items ∨
      items.size < (g.closureStep first items).size :=
    foldl_eq_self_or_lt (fun items entry _ => items.add_eq_self_or_size_lt entry.1 entry.2) _
  exact hgrows.resolve_right hsize.not_gt

/-- The passes over a set of items end with its closure. -/
theorem settles_closure (hg : g.IsClosed) (items : ItemSet) :
    Settles (g.closurePass (.ofGrammar g)) items (g.closure (.ofGrammar g) items) :=
  settles_stabilize_of_eq_self (fun _ => True) ItemSet.size g.addedCount
    (fun items _ => g.fst_closurePass _ items) (fun items _ => g.tellsGrowth_closurePass _ items)
    (fun _ _ => trivial) (fun items _ => closureStep_eq_self_or_lt hg items)
    (fun _ _ hsize => closureStep_eq_self hsize) (fun items _ => g.addedCount_le items) trivial
    (g.addedCount_lt_closureBound items)

/-! ## Transitions -/

/-- Adds an entry to the group of the symbol that it expects. -/
def groupEntry (g : Grammar) (groups : OrderedMap Symbol ItemSet) (entry : Item × NatSet) :
    OrderedMap Symbol ItemSet :=
  match g.next? entry.1 with
  | some symbol => groups.upsert symbol fun known => (known.getD ∅).add entry.1.advance entry.2
  | none => groups

/-- The items with their markers moved, grouped by the symbol that they move over. -/
def grouped (g : Grammar) (items : ItemSet) : OrderedMap Symbol ItemSet :=
  items.entries.foldl g.groupEntry ∅

/-- The entries that expect the symbol, with their markers moved over it. -/
def movedOver (g : Grammar) (symbol : Symbol) (entries : List (Item × NatSet)) :
    List (Item × NatSet) :=
  (entries.filter fun entry => g.next? entry.1 = some symbol).map
    fun entry => (entry.1.advance, entry.2)

theorem keys_foldl_groupEntry (entries : List (Item × NatSet))
    (groups : OrderedMap Symbol ItemSet) :
    (entries.foldl g.groupEntry groups).keys =
      groups.keys ++ unseen groups.keys (entries.filterMap fun entry => g.next? entry.1) := by
  induction entries generalizing groups with
  | nil => simp [unseen]
  | cons entry entries ih =>
      rw [List.foldl_cons, ih, groupEntry, List.filterMap_cons]
      cases g.next? entry.1 with
      | none => rfl
      | some s =>
          simp only [OrderedMap.keys_upsert, unseen]
          split
          · rfl
          · have hsame : ∀ j, j ∈ groups.keys ++ [s] ↔ j ∈ s :: groups.keys := fun j => by
              rw [List.mem_append, List.mem_singleton, List.mem_cons, or_comm]
            rw [unseen_congr hsame, List.append_assoc, List.singleton_append]

theorem getD_foldl_groupEntry (entries : List (Item × NatSet))
    (groups : OrderedMap Symbol ItemSet) (symbol : Symbol) :
    ((entries.foldl g.groupEntry groups).get? symbol).getD ∅ =
      ((groups.get? symbol).getD ∅).addAll (g.movedOver symbol entries) := by
  induction entries generalizing groups with
  | nil => rfl
  | cons entry entries ih =>
      rw [List.foldl_cons, ih, groupEntry, movedOver, movedOver, List.filter_cons]
      cases g.next? entry.1 with
      | none => simp
      | some s =>
          by_cases hs : symbol = s
          · subst hs
            simp [ItemSet.addAll]
          · simp [hs, Ne.symm hs]

/-- One pass over the items finds the kernels that the items move to. -/
theorem entries_grouped (g : Grammar) (items : ItemSet) :
    (g.grouped items).entries = g.transitions items := by
  have hkeys : (g.grouped items).keys = g.expected items := by
    have hempty : (∅ : OrderedMap Symbol ItemSet).keys = [] := rfl
    rw [grouped, keys_foldl_groupEntry, hempty, List.nil_append, expected, distinct,
      ItemSet.cores, List.filterMap_map]
    rfl
  have hvalues : ∀ symbol ∈ (g.grouped items).keys,
      (g.grouped items).get? symbol = some (g.goto items symbol) := by
    intro symbol hsymbol
    obtain ⟨kernel, hkernel⟩ := OrderedMap.mem_keys_iff.mp hsymbol
    have hmoved := getD_foldl_groupEntry items.entries (g := g) ∅ symbol
    rw [← grouped, hkernel] at hmoved
    rw [hkernel]
    exact congrArg some hmoved
  rw [OrderedMap.entries_eq_map_keys hvalues, hkeys]
  rfl

end Grammar

end GrammarAnalysis

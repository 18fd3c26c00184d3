import Mathlib.Data.Finset.Prod
import GrammarAnalysis.Proofs.Iteration.Exploration
import GrammarAnalysis.Proofs.ShiftReduce.Automaton
import GrammarAnalysis.Proofs.ShiftReduce.Table
import GrammarAnalysis.ShiftReduce.Canonical

/-!
# The canonical automaton is an automaton of item sets

Every kernel gives each item of the grammar some set of terminals, or leaves it
out, so the exploration of the kernels is complete.  Each state is the closure
of its kernel, and its transitions lead to the kernels it moves to.
-/

namespace GrammarAnalysis

namespace Grammar

variable {g : Grammar}

/-- The items of all rules. -/
def allItems (g : Grammar) : List Item :=
  g.rules.entries.flatMap fun entry =>
    (List.range (entry.2.body.length + 1)).map fun marker => ⟨entry.1, marker⟩

theorem mem_allItems {item : Item} : item ∈ g.allItems ↔ g.HasItem item := by
  simp only [allItems, List.mem_flatMap, List.mem_map, List.mem_range]
  constructor
  · rintro ⟨⟨id, rule⟩, hentry, marker, hmarker, rfl⟩
    exact ⟨rule, OrderedMap.get?_eq_some_iff.mpr hentry, by simpa [Nat.lt_succ_iff] using hmarker⟩
  · rintro ⟨rule, hrule, hmarker⟩
    exact ⟨(item.rule, rule), OrderedMap.get?_eq_some_iff.mp hrule, item.marker,
      Nat.lt_succ_of_le hmarker, rfl⟩

theorem length_allItems : g.allItems.length = g.itemCount := by
  rw [allItems, itemCount, bodySize, OrderedMap.values, OrderedMap.size]
  induction g.rules.entries with
  | nil => rfl
  | cons entry rest ih =>
      simp only [List.flatMap_cons, List.length_append, List.length_map, List.length_range, ih,
        List.map_cons, totalBy_cons, List.length_cons]
      omega

/-! ## Counting kernels -/

/-- Everything that a set of items can say. -/
def sayable (g : Grammar) : Finset (Item × Option TerminalId) :=
  g.allItems.toFinset ×ˢ (none :: g.terminals.keys.map some).toFinset

open Classical in
/-- What a set of items says. -/
noncomputable def said (g : Grammar) (items : ItemSet) : Finset (Item × Option TerminalId) :=
  g.sayable.filter (SaysOf items)

theorem saysOf_mem_sayable {items : ItemSet} (h : items.Fits g)
    {entry : Item × Option TerminalId} (hsaid : SaysOf items entry) : entry ∈ g.sayable := by
  obtain ⟨item, option⟩ := entry
  cases option with
  | none =>
      have hitem := mem_allItems.mpr (h.hasItem item hsaid)
      simp [sayable, hitem]
  | some t =>
      have hitem := mem_allItems.mpr (h.hasItem item (ItemSet.Looks.mem_cores hsaid))
      have ht := h.declared item t hsaid
      simp [sayable, hitem, ht]

theorem mem_said_iff {items : ItemSet} (h : items.Fits g) {entry : Item × Option TerminalId} :
    entry ∈ g.said items ↔ SaysOf items entry := by
  classical
  rw [said, Finset.mem_filter]
  exact ⟨fun hmem => hmem.2, fun hsaid => ⟨saysOf_mem_sayable h hsaid, hsaid⟩⟩

theorem eq_of_said_eq {items others : ItemSet} (h : items.Fits g) (h' : others.Fits g)
    (heq : g.said items = g.said others) : items = others := by
  have hsaid : ∀ entry, SaysOf items entry ↔ SaysOf others entry := fun entry => by
    rw [← mem_said_iff h, ← mem_said_iff h', heq]
  exact ItemSet.ext_of_looks (fun item => hsaid (item, none)) fun item t => hsaid (item, some t)

/-- There are no more sets of items than the bound on kernels. -/
theorem atMost_fits (g : Grammar) :
    AtMost (CanonicalAutomaton.kernelBound g) (ItemSet.Fits g) := by
  have hsaid : ∀ items : ItemSet, items.Fits g → g.said items ⊆ g.sayable := by
    intro items h entry hentry
    exact saysOf_mem_sayable h ((mem_said_iff h).mp hentry)
  refine atMost_of_subsets g.said g.sayable hsaid (fun _ _ h h' => eq_of_said_eq h h') ?_
  have hitems : g.allItems.toFinset.card ≤ g.itemCount := by
    rw [← length_allItems]
    exact List.toFinset_card_le _
  have hoptions : (none :: g.terminals.keys.map some).toFinset.card ≤ g.terminals.size + 1 := by
    refine (List.toFinset_card_le _).trans ?_
    rw [List.length_cons, List.length_map, OrderedMap.length_keys]
  have hcard : g.sayable.card ≤ (g.terminals.size + 2) * (g.itemCount + 2) := by
    rw [sayable, Finset.card_product, Nat.mul_comm]
    exact Nat.mul_le_mul (by omega) (by omega)
  rw [CanonicalAutomaton.kernelBound]
  exact (Nat.pow_le_pow_right (by omega) hcard).trans (Nat.le_succ _)

end Grammar

namespace CanonicalAutomaton

variable {g a : Grammar}

/-! ## Kernels -/

/-- The kernels in order of discovery. -/
def keys (g : Grammar) : List ItemSet := (kernels g (.ofGrammar g)).map Prod.fst

theorem mem_cores_startKernel {item : Item} :
    item ∈ startKernel.cores ↔ item = Item.initial acceptRule := by
  simp [startKernel, ItemSet.mem_cores_ofList]

theorem looks_startKernel {item : Item} {t : TerminalId} :
    startKernel.Looks item t ↔ item = Item.initial acceptRule ∧ t = endOfInput := by
  rw [startKernel, ItemSet.looks_ofList]
  simp only [List.mem_singleton, Prod.mk.injEq]
  constructor
  · rintro ⟨-, ⟨rfl, rfl⟩, ht⟩
    exact ⟨rfl, NatSet.mem_singleton.mp ht⟩
  · rintro ⟨rfl, rfl⟩
    exact ⟨_, ⟨rfl, rfl⟩, NatSet.mem_singleton.mpr rfl⟩

theorem fits_startKernel (h : g.IsAugmentation a) : startKernel.Fits a := by
  refine ⟨?_, ?_⟩
  · intro item hitem
    rw [mem_cores_startKernel.mp hitem]
    exact ⟨_, h.get?_accept, Nat.zero_le _⟩
  · intro item t hlooks
    rw [(looks_startKernel.mp hlooks).2]
    exact h.endOfInput_declared

theorem leads_iff {kernel target : ItemSet} :
    Leads (expand a (.ofGrammar a)) (fun expansion => expansion.followers.map Prod.snd)
        kernel target ↔
      ∃ s, (s, target) ∈ a.transitions (a.closure (.ofGrammar a) kernel) := by
  simp [Leads, expand]

theorem fits_of_leads (h : g.IsAugmentation a) {kernel target : ItemSet} (hkernel : kernel.Fits a)
    (hleads : Leads (expand a (.ofGrammar a)) (fun expansion => expansion.followers.map Prod.snd)
      kernel target) : target.Fits a := by
  obtain ⟨s, hs⟩ := leads_iff.mp hleads
  rw [(Grammar.mem_transitions_iff.mp hs).2]
  exact Grammar.fits_goto (Grammar.fits_closure h.isClosed hkernel) s

theorem mem_keys_iff (h : g.IsAugmentation a) {kernel : ItemSet} :
    kernel ∈ keys a ↔ Relation.ReflTransGen (Leads (expand a (.ofGrammar a))
      fun expansion => expansion.followers.map Prod.snd) startKernel kernel := by
  have hroots : ∀ r ∈ [startKernel], r.Fits a := by
    intro r hr
    rw [List.mem_singleton.mp hr]
    exact fits_startKernel h
  rw [keys, kernels, mem_explore_iff hroots (fun _ hk _ hj => fits_of_leads h hk hj)
    (Grammar.atMost_fits a)]
  simp

theorem fits_of_mem_keys (h : g.IsAugmentation a) {kernel : ItemSet} (hk : kernel ∈ keys a) :
    kernel.Fits a := by
  have hreach := (mem_keys_iff h).mp hk
  induction hreach with
  | refl => exact fits_startKernel h
  | tail hfront hleads ih =>
      exact fits_of_leads h (ih ((mem_keys_iff h).mpr hfront)) hleads

/-! ## States -/

/-- The state of a kernel. -/
def stateOf (g : Grammar) (kernel : ItemSet) : CanonicalState where
  kernel := kernel
  items := g.closure (.ofGrammar g) kernel
  transitions := OrderedMap.ofList ((g.transitions (g.closure (.ofGrammar g) kernel)).map
    fun entry => (entry.1, (keys g).idxOf entry.2))

theorem states_eq (g : Grammar) : g.canonicalAutomaton.states = (keys g).map (stateOf g) := by
  rw [keys, List.map_map]
  refine List.map_congr_left fun entry hentry => ?_
  obtain ⟨kernel, expansion⟩ := entry
  have hexpansion : expansion = expand g (.ofGrammar g) kernel :=
    expansion_of_mem_explore hentry
  subst hexpansion
  rfl

theorem getElem?_states {s : StateId} :
    g.canonicalAutomaton.states[s]? = (keys g)[s]?.map (stateOf g) := by
  rw [states_eq, List.getElem?_map]

theorem keys_zero (g : Grammar) : (keys g)[0]? = some startKernel :=
  head_explore startKernel

theorem get?_transitions {kernel : ItemSet} {s : Symbol} {next : StateId} :
    (stateOf g kernel).transitions.get? s = some next ↔
      (∃ item ∈ (g.closure (.ofGrammar g) kernel).cores, g.next? item = some s) ∧
        next = (keys g).idxOf (g.goto (g.closure (.ofGrammar g) kernel) s) := by
  have hnodup : (((g.transitions (g.closure (.ofGrammar g) kernel)).map
      fun entry => (entry.1, (keys g).idxOf entry.2)).map Prod.fst).Nodup := by
    have hfst : (((g.transitions (g.closure (.ofGrammar g) kernel)).map
        fun entry => (entry.1, (keys g).idxOf entry.2)).map Prod.fst) =
        g.expected (g.closure (.ofGrammar g) kernel) := by
      simp [Grammar.transitions, Function.comp_def]
    rw [hfst]
    exact nodup_distinct _
  rw [stateOf, OrderedMap.get?_ofList hnodup, List.mem_map]
  simp only [Prod.exists, Grammar.mem_transitions_iff, Prod.mk.injEq]
  constructor
  · rintro ⟨s, target, ⟨hs, rfl⟩, rfl, rfl⟩
    exact ⟨hs, rfl⟩
  · rintro ⟨hs, rfl⟩
    exact ⟨s, _, ⟨hs, rfl⟩, rfl, rfl⟩

theorem keys_idxOf_goto (h : g.IsAugmentation a) {kernel : ItemSet} {s : Symbol}
    (hk : kernel ∈ keys a)
    (hs : ∃ item ∈ (a.closure (.ofGrammar a) kernel).cores, a.next? item = some s) :
    (keys a)[(keys a).idxOf (a.goto (a.closure (.ofGrammar a) kernel) s)]? =
      some (a.goto (a.closure (.ofGrammar a) kernel) s) := by
  refine List.getElem?_idxOf ((mem_keys_iff h).mpr ?_)
  refine ((mem_keys_iff h).mp hk).tail (leads_iff.mpr ⟨s, ?_⟩)
  exact Grammar.mem_transitions_iff.mpr ⟨hs, rfl⟩

theorem getElem?_parserStates {s : StateId} :
    g.canonicalAutomaton.parserStates[s]? =
      (keys g)[s]?.map fun kernel =>
        ⟨(stateOf g kernel).items, (stateOf g kernel).transitions⟩ := by
  rw [parserStates, List.getElem?_map, getElem?_states, Option.map_map]
  rfl

theorem holdsAt_iff {s : StateId} {item : Item} :
    HoldsAt g.canonicalAutomaton.parserStates s item ↔
      ∃ kernel, (keys g)[s]? = some kernel ∧
        item ∈ (g.closure (.ofGrammar g) kernel).cores := by
  simp [HoldsAt, getElem?_parserStates, stateOf]

theorem movesTo_iff {s next : StateId} {symbol : Symbol} :
    MovesTo g.canonicalAutomaton.parserStates s symbol next ↔
      ∃ kernel, (keys g)[s]? = some kernel ∧
        (∃ item ∈ (g.closure (.ofGrammar g) kernel).cores, g.next? item = some symbol) ∧
          next = (keys g).idxOf (g.goto (g.closure (.ofGrammar g) kernel) symbol) := by
  simp [MovesTo, getElem?_parserStates, get?_transitions]

/-- Whether the canonical state has the item with the lookahead. -/
def LooksAt (g : Grammar) (s : StateId) (item : Item) (t : TerminalId) : Prop :=
  ∃ kernel, (keys g)[s]? = some kernel ∧ (g.closure (.ofGrammar g) kernel).Looks item t

theorem looksAt_iff {s : StateId} {item : Item} {t : TerminalId} :
    LooksAt g s item t ↔ ReducesOn g none g.canonicalAutomaton.parserStates s item t := by
  simp [LooksAt, ReducesOn, getElem?_parserStates, stateOf, ParseTable.reduceLookaheads,
    ItemSet.Looks]

/-- A transition leads to the state of the kernel it moves to. -/
theorem keys_of_movesTo (h : g.IsAugmentation a) {s next : StateId} {symbol : Symbol}
    (move : MovesTo a.canonicalAutomaton.parserStates s symbol next) :
    ∃ kernel, (keys a)[s]? = some kernel ∧
      (keys a)[next]? = some (a.goto (a.closure (.ofGrammar a) kernel) symbol) := by
  obtain ⟨kernel, hkernel, hsymbol, rfl⟩ := movesTo_iff.mp move
  exact ⟨kernel, hkernel, keys_idxOf_goto h (List.mem_of_getElem? hkernel) hsymbol⟩

/-- Every kernel is found at the end of a path. -/
theorem exists_path_of_mem_keys (h : g.IsAugmentation a) {kernel : ItemSet} (hk : kernel ∈ keys a) :
    ∃ symbols s below, (keys a)[s]? = some kernel ∧
      Climbs a.canonicalAutomaton.parserStates [0] symbols (s :: below) := by
  have hreach := (mem_keys_iff h).mp hk
  induction hreach with
  | refl => exact ⟨[], 0, [], keys_zero a, .refl _⟩
  | @tail front target hfront hleads ih =>
      obtain ⟨symbols, s, below, hs, path⟩ := ih ((mem_keys_iff h).mpr hfront)
      obtain ⟨symbol, hsymbol⟩ := leads_iff.mp hleads
      obtain ⟨hexpected, rfl⟩ := Grammar.mem_transitions_iff.mp hsymbol
      refine ⟨symbols ++ [symbol], _, s :: below, List.getElem?_idxOf hk, path.step ?_⟩
      exact movesTo_iff.mpr ⟨front, hs, hexpected, rfl⟩

theorem exists_path_of_getElem? (h : g.IsAugmentation a) {s : StateId} {kernel : ItemSet}
    (hkernel : (keys a)[s]? = some kernel) :
    ∃ symbols below, Climbs a.canonicalAutomaton.parserStates [0] symbols (s :: below) := by
  obtain ⟨symbols, s', below, hs', path⟩ := exists_path_of_mem_keys h (List.mem_of_getElem? hkernel)
  have hlt := (List.getElem?_eq_some_iff.mp hkernel).1
  obtain rfl := (List.getElem?_inj hlt (nodup_explore _ _)).mp (hkernel.trans hs'.symm)
  exact ⟨symbols, below, path⟩

theorem exists_path_of_holdsAt (h : g.IsAugmentation a) {s : StateId} {item : Item}
    (hitem : HoldsAt a.canonicalAutomaton.parserStates s item) :
    ∃ symbols below, Climbs a.canonicalAutomaton.parserStates [0] symbols (s :: below) := by
  obtain ⟨kernel, hkernel, -⟩ := holdsAt_iff.mp hitem
  exact exists_path_of_getElem? h hkernel

/-- The canonical automaton of an augmented grammar. -/
def toLRAutomaton (h : g.IsAugmentation a) : LRAutomaton a where
  states := a.canonicalAutomaton.parserStates
  looks := LooksAt a
  holds_start := by
    intro item
    rw [holdsAt_iff, keys_zero]
    simp only [Option.some.injEq, exists_eq_left',
      Grammar.mem_cores_closure_iff h.isClosed (fits_startKernel h), mem_cores_startKernel]
  holds_next := by
    intro s symbol next move item
    obtain ⟨kernel, hkernel, hnext⟩ := keys_of_movesTo h move
    have hfits := fits_of_mem_keys h (List.mem_of_getElem? hnext)
    simp only [holdsAt_iff, hnext, Option.some.injEq, exists_eq_left',
      Grammar.mem_cores_closure_iff h.isClosed hfits]
    have hseed : (fun i => i ∈ (a.goto (a.closure (.ofGrammar a) kernel) symbol).cores) =
        MovedOver a a.canonicalAutomaton.parserStates s symbol := by
      funext i
      simp [Grammar.mem_cores_goto_iff, MovedOver, holdsAt_iff, hkernel]
    rw [hseed]
  exists_next := by
    intro s item symbol hitem hnext
    obtain ⟨kernel, hkernel, hmem⟩ := holdsAt_iff.mp hitem
    exact ⟨_, movesTo_iff.mpr ⟨kernel, hkernel, ⟨item, hmem, hnext⟩, rfl⟩⟩
  holds_of_looks := by
    rintro s item t ⟨kernel, hkernel, hlooks⟩
    exact holdsAt_iff.mpr ⟨kernel, hkernel, hlooks.mem_cores⟩
  looks_start := by
    refine ⟨startKernel, keys_zero a, ?_⟩
    rw [Grammar.looks_closure_iff h.isClosed (fits_startKernel h)]
    exact .seed (looks_startKernel.mpr ⟨rfl, rfl⟩)
  looks_next := by
    rintro s item symbol next t ⟨kernel, hkernel, hlooks⟩ hsymbol move
    obtain ⟨kernel', hkernel', hnext⟩ := keys_of_movesTo h move
    rw [hkernel, Option.some.injEq] at hkernel'
    subst hkernel'
    refine ⟨_, hnext, ?_⟩
    rw [Grammar.looks_closure_iff h.isClosed (fits_of_mem_keys h (List.mem_of_getElem? hnext))]
    exact .seed (Grammar.looks_goto_iff.mpr ⟨item, hlooks, hsymbol, rfl⟩)
  looks_spawn := by
    rintro s item j n l t ⟨kernel, hkernel, hlooks⟩ hsymbol hj hstart
    have hfits := fits_of_mem_keys h (List.mem_of_getElem? hkernel)
    exact ⟨kernel, hkernel,
      (Grammar.spawn_closure h.isClosed hfits hlooks.mem_cores hsymbol hj).2 l t hlooks hstart⟩

/-- The canonical table follows the items of the canonical automaton. -/
theorem drives_lr1 (h : g.IsAugmentation a) :
    (toLRAutomaton h).Drives (ParseTable.lr1 a a.canonicalAutomaton) :=
  ParseTable.drives_ofStates (toLRAutomaton h) .lr1 fun _ _ _ => looksAt_iff

end CanonicalAutomaton

end GrammarAnalysis

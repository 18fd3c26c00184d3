import GrammarAnalysis.Proofs.Item.Passes
import GrammarAnalysis.Proofs.ShiftReduce.ValidItems

/-!
# The canonical automaton is generated completely

The generator keeps a queue of states whose transitions are still to be filled in.
It takes the first of them, groups its items by the symbols they expect, and fills
in one transition for each group; a kernel that has not been met gets a state
without transitions at the end of the queue.  The queue runs empty, with the
states of the canonical automaton (`Generator.ends_start`).
-/

namespace GrammarAnalysis

/-! ## Places in lists -/

theorem getElem?_concat_eq_some_iff {α : Type} {as : List α} {a b : α} {i : Nat} :
    (as ++ [a])[i]? = some b ↔ as[i]? = some b ∨ i = as.length ∧ a = b := by
  rw [List.getElem?_append]
  split
  · next hlt => simp [Nat.ne_of_lt hlt]
  · next hge =>
    have hnone : as[i]? = none := List.getElem?_eq_none_iff.mpr (Nat.le_of_not_lt hge)
    simp [hnone, List.getElem?_singleton]
    omega

theorem getElem?_of_isPrefix {α : Type} {as bs : List α} {a : α} {i : Nat} (h : as <+: bs)
    (ha : as[i]? = some a) : bs[i]? = some a := by
  obtain ⟨rest, rfl⟩ := h
  rw [List.getElem?_append_left (List.getElem?_eq_some_iff.mp ha).1, ha]

theorem modify_append_cons {α : Type} (before after : List α) (a : α) (f : α → α) :
    (before ++ a :: after).modify before.length f = before ++ f a :: after := by
  induction before with
  | nil => rfl
  | cons b before ih => simp [ih]

/-- The state with one transition filled in. -/
def CanonicalState.addTransition (state : CanonicalState) (entry : Symbol × StateId) :
    CanonicalState :=
  { state with transitions := state.transitions.insert entry.1 entry.2 }

theorem CanonicalState.foldl_addTransition (state : CanonicalState)
    (entries : List (Symbol × StateId)) :
    entries.foldl CanonicalState.addTransition state =
      { state with transitions :=
          entries.foldl (fun m entry => m.insert entry.1 entry.2) state.transitions } := by
  induction entries generalizing state with
  | nil => rfl
  | cons entry entries ih => exact ih (state.addTransition entry)

namespace CanonicalAutomaton

/-- The generator at work. -/
structure Generator where
  /-- The states that have been made. -/
  states : List CanonicalState
  /-- The numbers of the kernels that have been met. -/
  kernels : OrderedMap ItemSet StateId
  /-- The numbers of the states whose transitions are still to be filled in. -/
  pending : List StateId

namespace Generator

variable {a : Grammar} {gen : Generator} {filled before : List CanonicalState}
  {state : CanonicalState} {waiting : List ItemSet}

/-- The state of a kernel before its transitions are filled in. -/
def unfilled (a : Grammar) (kernel : ItemSet) : CanonicalState :=
  ⟨kernel, a.closure (.ofGrammar a) kernel, ∅⟩

/-- The number of the state of a kernel.  For a kernel that has not been met the state is
made, and has to wait. -/
def intern (a : Grammar) (gen : Generator) (kernel : ItemSet) : StateId × Generator :=
  match gen.kernels.get? kernel with
  | some id => (id, gen)
  | none =>
    (gen.states.length,
      { states := gen.states ++ [unfilled a kernel]
        kernels := gen.kernels.insert kernel gen.states.length
        pending := gen.pending ++ [gen.states.length] })

/-- Fills in one transition of the state with the given number. -/
def fill (a : Grammar) (id : StateId) (gen : Generator) (entry : Symbol × ItemSet) : Generator :=
  let interned := gen.intern a entry.2
  { interned.2 with states := interned.2.states.modify id (·.addTransition (entry.1, interned.1)) }

/-- The generator that has met the first kernel. -/
def start (a : Grammar) : Generator := (intern a ⟨[], ∅, []⟩ startKernel).2

/-- Filling in the transitions of the states that wait, in turn, ends with the given states. -/
inductive Ends (a : Grammar) : Generator → List CanonicalState → Prop
  | done {gen : Generator} (idle : gen.pending = []) : Ends a gen gen.states
  | next {gen : Generator} {id : StateId} {pending : List StateId} {state : CanonicalState}
      {states : List CanonicalState} (first : gen.pending = id :: pending)
      (found : gen.states[id]? = some state)
      (rest : Ends a ((a.grouped state.items).entries.foldl (fill a id)
        { gen with pending := pending }) states) : Ends a gen states

/-- What the generator has done: states with transitions, then states that wait for them. -/
structure Tracks (a : Grammar) (gen : Generator) (filled : List CanonicalState)
    (waiting : List ItemSet) : Prop where
  states : gen.states = filled ++ waiting.map (unfilled a)
  kernels : ∀ kernel id, gen.kernels.get? kernel = some id ↔
    (filled.map CanonicalState.kernel ++ waiting)[id]? = some kernel
  pending : gen.pending = List.range' filled.length waiting.length

theorem Tracks.length (h : gen.Tracks a filled waiting) :
    gen.states.length = (filled.map CanonicalState.kernel ++ waiting).length := by
  simp [h.states]

theorem Tracks.intern (h : gen.Tracks a filled waiting) {known : List ItemSet}
    (hknown : known = filled.map CanonicalState.kernel ++ waiting) (kernel : ItemSet) :
    (known ++ unseen known [kernel])[(gen.intern a kernel).1]? = some kernel ∧
      (gen.intern a kernel).2.Tracks a filled (waiting ++ unseen known [kernel]) := by
  subst hknown
  rw [Generator.intern]
  split
  · next id hid =>
    have hget := (h.kernels kernel id).mp hid
    have hnone : unseen (filled.map CanonicalState.kernel ++ waiting) [kernel] = [] := by
      simp [unseen, List.mem_of_getElem? hget]
    rw [hnone, List.append_nil, List.append_nil]
    exact ⟨hget, h⟩
  · next hnew =>
    have hkernel : kernel ∉ filled.map CanonicalState.kernel ++ waiting := fun hmem => by
      obtain ⟨id, hid⟩ := List.getElem?_of_mem hmem
      rw [(h.kernels kernel id).mpr hid] at hnew
      contradiction
    have hone : unseen (filled.map CanonicalState.kernel ++ waiting) [kernel] = [kernel] := by
      rw [unseen, if_neg hkernel]
      rfl
    rw [hone]
    refine ⟨by rw [h.length, List.getElem?_concat_length], ?_, ?_, ?_⟩
    · simp [h.states]
    · intro k id
      rw [OrderedMap.get?_insert, h.length, ← List.append_assoc, getElem?_concat_eq_some_iff]
      by_cases hk : k = kernel
      · subst hk
        have hold : (filled.map CanonicalState.kernel ++ waiting)[id]? ≠ some k := fun hget =>
          hkernel (List.mem_of_getElem? hget)
        simp [hold, eq_comm]
      · rw [if_neg hk, h.kernels]
        simp [Ne.symm hk]
    · rw [h.pending, h.length, List.length_append, List.length_append, List.length_singleton,
        List.length_map, List.range'_concat, Nat.one_mul]

/-- Filling in a transition may leave one kernel more waiting. -/
theorem Tracks.fill (h : gen.Tracks a (before ++ [state]) waiting) {known : List ItemSet}
    (hknown : known = before.map CanonicalState.kernel ++ state.kernel :: waiting)
    (entry : Symbol × ItemSet) :
    ∃ next, (known ++ unseen known [entry.2])[next]? = some entry.2 ∧
      (gen.fill a before.length entry).Tracks a
        (before ++ [state.addTransition (entry.1, next)])
        (waiting ++ unseen known [entry.2]) := by
  obtain ⟨hnext, hgen⟩ := h.intern (by simp [hknown] : known = _) entry.2
  refine ⟨(gen.intern a entry.2).1, hnext, ?_, ?_, ?_⟩
  · rw [Generator.fill, hgen.states, List.append_assoc, List.singleton_append, modify_append_cons,
      List.append_assoc, List.singleton_append]
  · intro kernel id
    have hkernels := hgen.kernels kernel id
    rw [List.map_append, List.map_singleton] at hkernels ⊢
    exact hkernels
  · have hpending := hgen.pending
    rw [List.length_append, List.length_singleton] at hpending ⊢
    exact hpending

/-- Filling in all transitions of a state leaves the new kernels waiting. -/
theorem Tracks.foldl_fill {final known : List ItemSet} (hfinal : final.Nodup)
    (h : gen.Tracks a (before ++ [state]) waiting)
    (hknown : known = before.map CanonicalState.kernel ++ state.kernel :: waiting)
    {entries : List (Symbol × ItemSet)}
    (hfront : known ++ unseen known (entries.map Prod.snd) <+: final) :
    (entries.foldl (Generator.fill a before.length) gen).Tracks a
      (before ++ [(entries.map fun entry => (entry.1, final.idxOf entry.2)).foldl
        CanonicalState.addTransition state])
      (waiting ++ unseen known (entries.map Prod.snd)) := by
  induction entries generalizing gen state waiting known with
  | nil => simpa [unseen] using h
  | cons entry entries ih =>
      obtain ⟨next, hnext, hgen⟩ := h.fill hknown entry
      have hsplit : unseen known ((entry :: entries).map Prod.snd) =
          unseen known [entry.2] ++
            unseen (known ++ unseen known [entry.2]) (entries.map Prod.snd) := by
        rw [List.map_cons, ← List.singleton_append, unseen_append]
      rw [hsplit, ← List.append_assoc] at hfront
      obtain rfl : next = final.idxOf entry.2 := by
        have hfound : final[next]? = some entry.2 :=
          getElem?_of_isPrefix ((List.prefix_append _ _).trans hfront) hnext
        exact (eq_idxOf_iff hfinal (List.mem_of_getElem? hfound)).mpr hfound
      rw [hsplit, ← List.append_assoc]
      exact ih hgen (by simp [hknown, CanonicalState.addTransition]) hfront

/-- The first kernel that waits is the next one whose transitions are filled in. -/
theorem Tracks.pop {kernel : ItemSet} (h : gen.Tracks a before (kernel :: waiting)) :
    gen.pending = before.length :: List.range' (before.length + 1) waiting.length ∧
      gen.states[before.length]? = some (unfilled a kernel) ∧
      Tracks a { gen with pending := List.range' (before.length + 1) waiting.length }
        (before ++ [unfilled a kernel]) waiting := by
  refine ⟨?_, ?_, ?_, ?_, ?_⟩
  · rw [h.pending, List.length_cons, List.range'_succ]
  · rw [h.states, List.map_cons, List.getElem?_append_right (Nat.le_refl _), Nat.sub_self]
    rfl
  · rw [h.states, List.map_cons, List.append_assoc, List.singleton_append]
  · intro k id
    rw [h.kernels, List.map_append, List.append_assoc]
    rfl
  · rw [List.length_append, List.length_singleton]

/-- A state whose transitions have all been filled in. -/
theorem foldl_addTransition_unfilled (a : Grammar) (kernel : ItemSet) :
    ((expand a (.ofGrammar a) kernel).followers.map fun entry =>
        (entry.1, (keys a).idxOf entry.2)).foldl CanonicalState.addTransition (unfilled a kernel) =
      stateOf a kernel :=
  CanonicalState.foldl_addTransition _ _

/-- The generator does what the exploration of the kernels does. -/
theorem Tracks.ends {explored last : List (ItemSet × Expansion)}
    (hrun : Explores (expand a (.ofGrammar a)) (fun expansion => expansion.followers.map Prod.snd)
      explored waiting last)
    (hlast : last.map Prod.fst = keys a)
    (h : gen.Tracks a ((explored.map Prod.fst).map (stateOf a)) waiting) :
    Ends a gen ((keys a).map (stateOf a)) := by
  induction hrun generalizing gen with
  | done explored =>
      have hstates : gen.states = (keys a).map (stateOf a) := by
        simpa [hlast] using h.states
      rw [← hstates]
      exact .done (by simpa using h.pending)
  | @next explored last kernel pending rest ih =>
      have hknown : explored.map Prod.fst ++ kernel :: pending =
          ((explored.map Prod.fst).map (stateOf a)).map CanonicalState.kernel ++
            (unfilled a kernel).kernel :: pending := by
        simp [stateOf, unfilled, Function.comp_def]
      have hfront := rest.waiting_isPrefix
      rw [hlast, List.map_append, List.map_singleton, List.append_assoc, List.singleton_append,
        ← List.cons_append, ← List.append_assoc] at hfront
      obtain ⟨hfirst, hfound, hbegun⟩ := h.pop
      have hnodup : (keys a).Nodup := nodup_explore _ _
      have hfilled := hbegun.foldl_fill hnodup hknown hfront
      rw [foldl_addTransition_unfilled] at hfilled
      refine .next hfirst hfound ?_
      rw [Grammar.entries_grouped]
      refine ih hlast ?_
      rw [List.map_append, List.map_append]
      exact hfilled

theorem tracks_start (a : Grammar) : (start a).Tracks a [] [startKernel] := by
  have hnone : Tracks a ⟨[], ∅, []⟩ [] [] := ⟨rfl, fun _ _ => by simp, rfl⟩
  exact (hnone.intern rfl startKernel).2

end Generator

/-- The generator ends with the canonical automaton. -/
theorem ends_start {g a : Grammar} (h : g.IsAugmentation a) :
    Generator.Ends a (Generator.start a) a.canonicalAutomaton.states := by
  have hroots : ∀ r ∈ [startKernel], r.Fits a := by
    intro r hr
    rw [List.mem_singleton.mp hr]
    exact fits_startKernel h
  have hrun := explores_explore hroots (fun _ hk _ hj => fits_of_leads h hk hj)
    (Grammar.atMost_fits a)
  rw [distinct_singleton] at hrun
  rw [states_eq]
  exact (Generator.tracks_start a).ends hrun rfl

/-! ## The states that are generated -/

/-- Whether the states of the automaton are the canonical collection of an augmented grammar. -/
structure IsCollectionOf (a : Grammar) (automaton : CanonicalAutomaton) : Prop where
  /-- The first state begins with the reserved rule, in front of the end of input. -/
  start : automaton.states[0]?.map CanonicalState.kernel = some startKernel
  /-- The items of a state are the closure of its kernel. -/
  items_eq : ∀ state ∈ automaton.states, state.items = a.closure (.ofGrammar a) state.kernel
  /-- The passes that close the kernel come to an end. -/
  settles : ∀ state ∈ automaton.states,
    Settles (a.closurePass (.ofGrammar a)) state.kernel state.items
  kernels_nodup : (automaton.states.map CanonicalState.kernel).Nodup
  /-- There are transitions over the symbols that the items expect, and no others. -/
  contains_iff : ∀ state ∈ automaton.states, ∀ symbol,
    state.transitions.contains symbol = true ↔
      ∃ item ∈ state.items.cores, a.next? item = some symbol
  /-- A transition leads to the state that begins with the items moved over its symbol. -/
  leads : ∀ state ∈ automaton.states, ∀ symbol next,
    state.transitions.get? symbol = some next →
      automaton.states[next]?.map CanonicalState.kernel = some (a.goto state.items symbol)
  reachable : ∀ s < automaton.states.length, ∃ symbols, automaton.along? symbols = some s

theorem isCollectionOf_canonicalAutomaton {g a : Grammar} (h : g.IsAugmentation a) :
    IsCollectionOf a a.canonicalAutomaton := by
  have hstate : ∀ {state}, state ∈ a.canonicalAutomaton.states →
      ∃ kernel ∈ keys a, stateOf a kernel = state := fun hstate => by
    rw [states_eq] at hstate
    exact List.mem_map.mp hstate
  have hkernels : a.canonicalAutomaton.states.map CanonicalState.kernel = keys a := by
    rw [states_eq, List.map_map]
    exact List.map_id _
  refine ⟨?_, ?_, ?_, ?_, ?_, ?_, ?_⟩
  · rw [← List.getElem?_map, hkernels, keys_zero]
  · intro state hmem
    obtain ⟨kernel, -, rfl⟩ := hstate hmem
    rfl
  · intro state hmem
    obtain ⟨kernel, -, rfl⟩ := hstate hmem
    exact Grammar.settles_closure h.isClosed kernel
  · rw [hkernels]
    exact nodup_explore _ _
  · intro state hmem symbol
    obtain ⟨kernel, -, rfl⟩ := hstate hmem
    rw [OrderedMap.contains_iff, OrderedMap.mem_keys_iff]
    simp only [get?_transitions, exists_and_left, exists_eq, and_true]
    rfl
  · intro state hmem symbol next hnext
    obtain ⟨kernel, hkernel, rfl⟩ := hstate hmem
    obtain ⟨hexpected, rfl⟩ := get?_transitions.mp hnext
    rw [← List.getElem?_map, hkernels]
    exact keys_idxOf_goto h hkernel hexpected
  · intro s hs
    rw [states_eq, List.length_map] at hs
    obtain ⟨symbols, below, path⟩ := exists_path_of_getElem? h (List.getElem?_eq_getElem hs)
    exact ⟨symbols, along?_iff_climbs.mpr ⟨below, path⟩⟩

end CanonicalAutomaton

namespace Grammar

/-- On the augmented grammar of a text the generator comes to an end with the canonical
automaton, whose states are the canonical collection. -/
theorem exists_complete_canonicalAutomaton {text : String} {g : Grammar}
    (hg : ofText text = .ok g) :
    ∃ a, g.augmented? = some a ∧
      a.rules.get? acceptRule = some ⟨augmentedStart, [.nonterminal g.start]⟩ ∧
      CanonicalAutomaton.Generator.Ends a (CanonicalAutomaton.Generator.start a)
        a.canonicalAutomaton.states ∧
      a.canonicalAutomaton.IsCollectionOf a := by
  obtain ⟨a, haccept, h⟩ := (isPlain_of_ofText hg).exists_isAugmentation
  exact ⟨a, augmented?_of_withAcceptRule? haccept, h.get?_accept,
    CanonicalAutomaton.ends_start h, CanonicalAutomaton.isCollectionOf_canonicalAutomaton h⟩

/-- The words of this grammar are pairs, and its collection has ten states. -/
theorem exists_complete_canonicalAutomaton_pairs :
    ∃ g a, ofText "S -> C C\nC -> c C | d\n" = .ok g ∧ g.augmented? = some a ∧
      a.canonicalAutomaton.states.length = 10 ∧
      a.canonicalAutomaton.IsCollectionOf a := by
  have hcomputed : (ofText "S -> C C\nC -> c C | d\n").toOption.map
      (fun g => g.augmented?.map fun a => a.canonicalAutomaton.states.length) =
      some (some 10) := by decide +kernel
  obtain ⟨g, hg, hlength⟩ := exists_of_ofText hcomputed
  obtain ⟨a, haugmented, -, -, hcollection⟩ := exists_complete_canonicalAutomaton hg
  rw [haugmented, Option.map_some, Option.some.injEq] at hlength
  exact ⟨g, a, hg, haugmented, hlength, hcollection⟩

end Grammar

end GrammarAnalysis

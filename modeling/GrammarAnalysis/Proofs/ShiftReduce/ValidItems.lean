import GrammarAnalysis.Proofs.Item.Traces
import GrammarAnalysis.Proofs.Lookahead.Nullable
import GrammarAnalysis.Proofs.ShiftReduce.Canonical

/-!
# The canonical automaton holds the valid items

The state that is reached along some symbols holds an item with a lookahead exactly
if a trace from the reserved rule leads along these symbols to the item, because its
lookaheads are those that unfold from the items moved over the last symbol.  The
items that traces lead to are the valid ones.
-/

namespace GrammarAnalysis

namespace CanonicalAutomaton

variable {g a : Grammar} {s next : StateId} {below : List StateId} {symbol : Symbol}
  {symbols : List Symbol} {item : Item} {t : TerminalId}

/-! ## Following transitions -/

/-- The state reached from the first one along some symbols. -/
def along? (automaton : CanonicalAutomaton) (symbols : List Symbol) : Option StateId :=
  symbols.foldlM (fun s symbol => do
    let state ← automaton.states[s]?
    state.transitions.get? symbol) 0

theorem movesTo_iff_bind {automaton : CanonicalAutomaton} :
    MovesTo automaton.parserStates s symbol next ↔
      (automaton.states[s]?.bind fun state => state.transitions.get? symbol) = some next := by
  simp [MovesTo, parserStates, Option.bind_eq_some_iff]

theorem along?_concat_iff {automaton : CanonicalAutomaton} :
    automaton.along? (symbols ++ [symbol]) = some next ↔
      ∃ s, automaton.along? symbols = some s ∧ MovesTo automaton.parserStates s symbol next := by
  simp only [movesTo_iff_bind]
  simp [along?, Option.bind_eq_some_iff]

theorem along?_iff_climbs {automaton : CanonicalAutomaton} :
    automaton.along? symbols = some s ↔
      ∃ below, Climbs automaton.parserStates [0] symbols (s :: below) := by
  constructor
  · intro h
    induction symbols using List.reverseRecOn generalizing s with
    | nil =>
        obtain rfl : 0 = s := Option.some.inj h
        exact ⟨[], .refl _⟩
    | append_singleton symbols symbol ih =>
        obtain ⟨r, hr, move⟩ := along?_concat_iff.mp h
        obtain ⟨below, path⟩ := ih hr
        exact ⟨r :: below, .step path move⟩
  · intro ⟨below, path⟩
    generalize htop : s :: below = top at path
    induction path generalizing s below with
    | refl =>
        obtain ⟨rfl, -⟩ := List.cons.inj htop
        rfl
    | step _ move ih =>
        obtain ⟨rfl, -⟩ := List.cons.inj htop
        exact along?_concat_iff.mpr ⟨_, ih _ rfl, move⟩

/-! ## Traces along paths -/

/-- A lookahead of a state comes from one that its kernel has. -/
theorem exists_seed_of_unfoldsWith {seed : Item → TerminalId → Prop}
    (h : a.UnfoldsWith seed item t) : ∃ i l, seed i l ∧ a.Traces i l [] item t := by
  induction h with
  | seed h => exact ⟨_, _, h, .refl _ _⟩
  | spawn _ expects initial starts ih =>
      obtain ⟨i, l, hseed, htrace⟩ := ih
      exact ⟨i, l, hseed, htrace.trans (.spawn expects initial starts (.refl _ _))⟩

/-- Traces lead to the items of the state at the end of a path. -/
theorem traces_of_looksAt (h : g.IsAugmentation a)
    (path : Climbs a.canonicalAutomaton.parserStates [0] symbols (s :: below))
    (hlooks : LooksAt a s item t) :
    a.Traces (Item.initial acceptRule) endOfInput symbols item t := by
  obtain ⟨kernel, hkernel, hlooks⟩ := hlooks
  generalize htop : s :: below = top at path
  induction path generalizing s below kernel item t with
  | refl =>
      obtain ⟨rfl, -⟩ := List.cons.inj htop
      obtain rfl := Option.some.inj (hkernel.symm.trans (keys_zero a))
      rw [Grammar.looks_closure_iff h.isClosed (fits_startKernel h)] at hlooks
      obtain ⟨i, l, hseed, htrace⟩ := exists_seed_of_unfoldsWith hlooks
      obtain ⟨rfl, rfl⟩ := looks_startKernel.mp hseed
      exact htrace
  | @step below' symbols s' next symbol path move ih =>
      obtain ⟨rfl, -⟩ := List.cons.inj htop
      obtain ⟨front, hfront, hnext⟩ := keys_of_movesTo h move
      obtain rfl := Option.some.inj (hkernel.symm.trans hnext)
      have hfits := fits_of_mem_keys h (List.mem_of_getElem? hnext)
      rw [Grammar.looks_closure_iff h.isClosed hfits] at hlooks
      obtain ⟨j, l, hseed, htrace⟩ := exists_seed_of_unfoldsWith hlooks
      obtain ⟨i, hi, hexpects, rfl⟩ := Grammar.looks_goto_iff.mp hseed
      exact (ih front hfront hi rfl).trans (.advance hexpects htrace)

end CanonicalAutomaton

/-- The state at the end of a path holds the items that traces lead to. -/
theorem LRAutomaton.exists_looks_of_traces {a : Grammar} (A : LRAutomaton a) {start item : Item}
    {l t : TerminalId} {seen symbols : List Symbol} {s : StateId} {below : List StateId}
    (htrace : a.Traces start l symbols item t) (hlooks : A.looks s start l)
    (path : Climbs A.states [0] seen (s :: below)) :
    ∃ s' below', Climbs A.states [0] (seen ++ symbols) (s' :: below') ∧ A.looks s' item t := by
  induction htrace generalizing seen s below with
  | refl => exact ⟨s, below, by rwa [List.append_nil], hlooks⟩
  | spawn expects initial starts _ ih => exact ih (A.looks_spawn hlooks expects initial starts) path
  | @advance item last symbol l t symbols expects _ ih =>
      obtain ⟨next, move⟩ := A.exists_next (A.holds_of_looks hlooks) expects
      obtain ⟨s', below', path', hlast⟩ := ih (A.looks_next hlooks expects move) (path.step move)
      rw [List.append_assoc] at path'
      exact ⟨s', below', path', hlast⟩

namespace Grammar

variable {g a : Grammar}

theorem IsAugmentation.eq_initial_of_start (h : g.IsAugmentation a) :
    ∀ j ∈ a.initialItems a.start, j = Item.initial acceptRule := by
  intro j hj
  obtain ⟨rule, hrule, hhead, hmarker⟩ := mem_initialItems.mp hj
  rcases (h.get?_rules_iff _ _).mp hrule with ⟨haccept, -⟩ | hrule
  · cases j
    simp_all [Item.initial]
  · exact absurd (hhead.trans h.start_eq) (h.isPlain.head_ne hrule)

/-- In the canonical automaton of a productive grammar, the state that is reached along
some symbols holds exactly the items that are valid after these symbols. -/
theorem exists_exact_canonicalAutomaton {text : String} (hg : ofText text = .ok g)
    (hproductive : g.IsProductive) :
    ∃ a, g.augmented? = some a ∧ ∀ symbols item t,
      (∃ s state, a.canonicalAutomaton.along? symbols = some s ∧
        a.canonicalAutomaton.states[s]? = some state ∧ state.items.Looks item t) ↔
        a.IsValidItem symbols item t := by
  obtain ⟨a, haccept, h⟩ := (isPlain_of_ofText hg).exists_isAugmentation
  refine ⟨a, augmented?_of_withAcceptRule? haccept, fun symbols item t => ?_⟩
  constructor
  · intro ⟨s, state, halong, hstate, hlooks⟩
    obtain ⟨below, path⟩ := CanonicalAutomaton.along?_iff_climbs.mp halong
    rw [CanonicalAutomaton.getElem?_states, Option.map_eq_some_iff] at hstate
    obtain ⟨kernel, hkernel, rfl⟩ := hstate
    have htrace := CanonicalAutomaton.traces_of_looksAt h path ⟨kernel, hkernel, hlooks⟩
    have hstart := isValidItem_start h.get?_accept h.start_eq.symm
    exact htrace.isValidItem h.isClosed (h.isProductive hproductive) hstart
  · intro hvalid
    have htrace := hvalid.traces h.eq_initial_of_start
    obtain ⟨s, below, path, kernel, hkernel, hlooks⟩ :=
      (CanonicalAutomaton.toLRAutomaton h).exists_looks_of_traces htrace
        (CanonicalAutomaton.toLRAutomaton h).looks_start (.refl _)
    have halong := CanonicalAutomaton.along?_iff_climbs.mpr ⟨below, path⟩
    refine ⟨s, CanonicalAutomaton.stateOf a kernel, halong, ?_, hlooks⟩
    rw [CanonicalAutomaton.getElem?_states, hkernel]
    rfl

/-- After `a`, the rule `A -> epsilon` may be applied in front of `b` and in front of the
end of input, because `B` vanishes, but not in front of `a`. -/
theorem exists_exact_canonicalAutomaton_vanishing :
    ∃ g a, ofText "S -> A B\nA -> a A | epsilon\nB -> b | epsilon\n" = .ok g ∧
      g.IsProductive ∧ g.augmented? = some a ∧
      a.IsValidItem [.terminal 1] (Item.initial 3) 2 ∧
      a.IsValidItem [.terminal 1] (Item.initial 3) endOfInput ∧
      ¬ a.IsValidItem [.terminal 1] (Item.initial 3) 1 := by
  have hcomputed : (ofText "S -> A B\nA -> a A | epsilon\nB -> b | epsilon\n").toOption.map
      (fun g => (decide g.IsProductive, g.augmented?.map fun a =>
        (a.canonicalAutomaton.along? [.terminal 1]).bind fun s =>
          a.canonicalAutomaton.states[s]?.bind fun state =>
            state.items.lookaheads? (Item.initial 3))) =
      some (true, some (some (NatSet.ofList [endOfInput, 2]))) := by decide +kernel
  obtain ⟨g, hg, hcomputed⟩ := exists_of_ofText hcomputed
  obtain ⟨hproductive, hstates⟩ := Prod.mk.inj hcomputed
  rw [decide_eq_true_eq] at hproductive
  obtain ⟨a, haugmented, hvalid⟩ := exists_exact_canonicalAutomaton hg hproductive
  rw [haugmented, Option.map_some, Option.some.injEq] at hstates
  obtain ⟨s, halong, hstates⟩ := Option.bind_eq_some_iff.mp hstates
  obtain ⟨state, hstate, hlookaheads⟩ := Option.bind_eq_some_iff.mp hstates
  have hlooks : ∀ t, a.IsValidItem [.terminal 1] (Item.initial 3) t ↔
      t ∈ NatSet.ofList [endOfInput, 2] := by
    intro t
    rw [← hvalid]
    simp [halong, hstate, ItemSet.Looks, hlookaheads]
  refine ⟨g, a, hg, hproductive, haugmented, (hlooks 2).mpr ?_, (hlooks endOfInput).mpr ?_, ?_⟩
  · decide
  · decide
  · rw [hlooks]
    decide

end Grammar

end GrammarAnalysis

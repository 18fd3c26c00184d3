import GrammarAnalysis.Proofs.Automaton.Determinization
import GrammarAnalysis.Proofs.Automaton.Edges
import GrammarAnalysis.Proofs.Derivation.Languages
import GrammarAnalysis.Proofs.Lookahead.Starts
import GrammarAnalysis.Regular.Automaton

/-!
# The automata of a regular grammar recognize its language

The state of a nonterminal accepts the words that the nonterminal derives.  A path
from this state to a final state applies one rule for each terminal, and it may
pass through the extra final state at its end only.  In the other direction the
languages that the states accept solve the rules of the grammar.
-/

namespace GrammarAnalysis

/-! ## Adding edges and final states -/

namespace Nfa

variable {nfa nfa' nfa'' : Nfa} {n m : Nat} {t : TerminalId}

/-- Whether the second automaton is the first one with the given transitions and
final states added. -/
structure Adds (nfa : Nfa) (edges : Set Transition) (finals : Set Nat) (nfa' : Nfa) : Prop where
  start_eq : nfa'.start = nfa.start
  epsilons_eq : nfa'.epsilons = nfa.epsilons
  mem_targets_iff : ∀ {n t m}, m ∈ nfa'.targets n t ↔ m ∈ nfa.targets n t ∨ ⟨n, t, m⟩ ∈ edges
  mem_finals_iff : ∀ {n}, n ∈ nfa'.finals ↔ n ∈ nfa.finals ∨ n ∈ finals

theorem Adds.refl (nfa : Nfa) : nfa.Adds ∅ ∅ nfa := by
  constructor <;> simp

theorem adds_addTransition (nfa : Nfa) (edge : Transition) :
    nfa.Adds {edge} ∅ (nfa.addTransition edge) where
  start_eq := rfl
  epsilons_eq := rfl
  mem_targets_iff := mem_targets_addTransition
  mem_finals_iff := by simp [addTransition]

theorem adds_setFinal (nfa : Nfa) (state : Nat) : nfa.Adds ∅ {state} (nfa.setFinal state) where
  start_eq := rfl
  epsilons_eq := rfl
  mem_targets_iff := by simp [setFinal, targets]
  mem_finals_iff := by simp [setFinal, or_comm]

theorem Adds.trans {edges edges' : Set Transition} {finals finals' : Set Nat}
    (h : nfa.Adds edges finals nfa') (h' : nfa'.Adds edges' finals' nfa'') :
    nfa.Adds (edges ∪ edges') (finals ∪ finals') nfa'' where
  start_eq := h'.start_eq.trans h.start_eq
  epsilons_eq := h'.epsilons_eq.trans h.epsilons_eq
  mem_targets_iff := by
    intro n t m
    rw [h'.mem_targets_iff, h.mem_targets_iff, Set.mem_union, or_assoc]
  mem_finals_iff := by
    intro n
    rw [h'.mem_finals_iff, h.mem_finals_iff, Set.mem_union, or_assoc]

end Nfa

namespace Grammar

variable {g : Grammar} {n m : NonterminalId} {t : TerminalId} {state other : Nat} {rule : Rule}
  {nfa : Nfa} {word : List TerminalId}

/-! ## States of nonterminals -/

theorem getElem?_stateOrder (h : g.stateOf n = .ok state) : g.stateOrder[state]? = some n := by
  rw [stateOf] at h
  split at h
  · next hidx =>
    obtain ⟨hlt, hget, -⟩ := List.idxOf?_eq_some_iff.mp hidx
    rw [← Except.ok.inj h, List.getElem?_eq_getElem hlt, hget]
  · contradiction

/-- Every declared nonterminal has a state. -/
theorem exists_stateOf (h : g.Declares (.nonterminal n)) : ∃ state, g.stateOf n = .ok state := by
  have hmem : n ∈ g.stateOrder := by
    by_cases hn : n = g.start
    · rw [hn]
      exact List.mem_cons_self
    · exact List.mem_cons_of_mem _ (List.mem_filter.mpr ⟨h, decide_eq_true hn⟩)
  obtain ⟨state, hstate⟩ := Option.isSome_iff_exists.mp (List.isSome_idxOf?.mpr hmem)
  exact ⟨state, by rw [stateOf, hstate]⟩

theorem stateOf_start (g : Grammar) : g.stateOf g.start = .ok 0 := by
  rw [stateOf, stateOrder, List.idxOf?_cons, if_pos (beq_self_eq_true _)]

theorem eq_of_stateOf (h : g.stateOf n = .ok state) (h' : g.stateOf m = .ok state) : n = m := by
  have hm := getElem?_stateOrder h'
  rw [getElem?_stateOrder h] at hm
  exact Option.some.inj hm

theorem stateOf_ne_acceptingState : g.stateOf n ≠ .ok g.acceptingState := by
  intro h
  have hlt := (List.getElem?_eq_some_iff.mp (getElem?_stateOrder h)).1
  exact absurd hlt (lt_irrefl _)

/-! ## The edges of a rule -/

/-- The transitions that a rule stands for. -/
def edgesOf (g : Grammar) (rule : Rule) : Set Transition :=
  {edge | g.stateOf rule.head = .ok edge.source ∧
    (rule.body = [.terminal edge.terminal] ∧ edge.target = g.acceptingState ∨
      ∃ n, rule.body = [.terminal edge.terminal, .nonterminal n] ∧ g.stateOf n = .ok edge.target)}

/-- The states that a rule makes final. -/
def finalsOf (g : Grammar) (rule : Rule) : Set Nat :=
  {state | rule.body = [] ∧ g.stateOf rule.head = .ok state ∨
    (∃ t, rule.body = [.terminal t]) ∧ state = g.acceptingState}

/-- Whether a rule has the form of a regular grammar and mentions declared
nonterminals only. -/
structure HasStates (g : Grammar) (rule : Rule) : Prop where
  head_declared : g.Declares (.nonterminal rule.head)
  body_declared : ∀ symbol ∈ rule.body, g.Declares symbol
  body_cases : rule.body = [] ∨ (∃ t, rule.body = [.terminal t]) ∨
    ∃ t n, rule.body = [.terminal t, .nonterminal n]

/-- Such a rule adds its edges and its final states. -/
theorem HasStates.exists_addRegularRule (h : g.HasStates rule) (nfa : Nfa) :
    ∃ nfa', g.addRegularRule nfa rule = .ok nfa' ∧
      nfa.Adds (g.edgesOf rule) (g.finalsOf rule) nfa' := by
  obtain ⟨hhead, hbody, hcases⟩ := h
  obtain ⟨source, hsource⟩ := exists_stateOf hhead
  obtain ⟨head, body⟩ := rule
  simp only at hsource hcases
  rw [addRegularRule, hsource]
  obtain rfl | ⟨t, rfl⟩ | ⟨t, n, rfl⟩ := hcases
  · refine ⟨_, rfl, ?_⟩
    have hedges : g.edgesOf ⟨head, []⟩ = ∅ := by simp [edgesOf]
    have hfinals : g.finalsOf ⟨head, []⟩ = {source} := by
      ext state
      simp [finalsOf, hsource, eq_comm]
    rw [hedges, hfinals]
    exact nfa.adds_setFinal source
  · refine ⟨_, rfl, ?_⟩
    have hedges : g.edgesOf ⟨head, [.terminal t]⟩ = {⟨source, t, g.acceptingState⟩} ∪ ∅ := by
      ext ⟨p, u, q⟩
      simp [edgesOf, hsource, eq_comm]
    have hfinals : g.finalsOf ⟨head, [.terminal t]⟩ = ∅ ∪ {g.acceptingState} := by
      simp [finalsOf]
    rw [hedges, hfinals]
    exact (nfa.adds_addTransition _).trans (Nfa.adds_setFinal _ _)
  · obtain ⟨target, htarget⟩ := exists_stateOf (hbody (.nonterminal n) (by simp))
    refine ⟨nfa.addTransition ⟨source, t, target⟩, ?_, ?_⟩
    · change (g.stateOf n >>= _) = _
      rw [htarget]
      rfl
    have hedges : g.edgesOf ⟨head, [.terminal t, .nonterminal n]⟩ = {⟨source, t, target⟩} := by
      ext ⟨p, u, q⟩
      simp [edgesOf, hsource, htarget, eq_comm]
    have hfinals : g.finalsOf ⟨head, [.terminal t, .nonterminal n]⟩ = ∅ := by simp [finalsOf]
    rw [hedges, hfinals]
    exact nfa.adds_addTransition _

theorem exists_foldlM_addRegularRule {rules : List Rule} (h : ∀ rule ∈ rules, g.HasStates rule)
    (nfa : Nfa) :
    ∃ nfa', rules.foldlM g.addRegularRule nfa = .ok nfa' ∧
      nfa.Adds {edge | ∃ rule ∈ rules, edge ∈ g.edgesOf rule}
        {state | ∃ rule ∈ rules, state ∈ g.finalsOf rule} nfa' := by
  induction rules generalizing nfa with
  | nil => exact ⟨nfa, rfl, by simpa using Nfa.Adds.refl nfa⟩
  | cons rule rest ih =>
      obtain ⟨next, hnext, hadds⟩ := (h rule (by simp)).exists_addRegularRule nfa
      obtain ⟨last, hlast, hmore⟩ := ih (fun other hother => h other (by simp [hother])) next
      refine ⟨last, ?_, ?_⟩
      · rw [List.foldlM_cons, hnext]
        exact hlast
      · simpa [List.exists_mem_cons_iff, Set.ofPred_or] using hadds.trans hmore

/-! ## Words of the nondeterministic automaton -/

/-- Whether an automaton has the edges and the final states of the rules. -/
structure IsReadBy (g : Grammar) (nfa : Nfa) : Prop where
  start_eq : nfa.start = 0
  epsilonTargets_eq : ∀ n, nfa.epsilonTargets n = []
  mem_targets_iff : ∀ {p t q}, q ∈ nfa.targets p t ↔ ∃ rule ∈ g.ruleSet, ⟨p, t, q⟩ ∈ g.edgesOf rule
  mem_finals_iff : ∀ {q}, q ∈ nfa.finals ↔ ∃ rule ∈ g.ruleSet, q ∈ g.finalsOf rule

theorem isReadBy_of_adds {states : Nat}
    (h : (Nfa.empty states 0).Adds {edge | ∃ rule ∈ g.rules.values, edge ∈ g.edgesOf rule}
      {state | ∃ rule ∈ g.rules.values, state ∈ g.finalsOf rule} nfa) : g.IsReadBy nfa where
  start_eq := h.start_eq
  epsilonTargets_eq n := by
    rw [Nfa.epsilonTargets, h.epsilons_eq]
    rfl
  mem_targets_iff := by
    intro p t q
    rw [h.mem_targets_iff]
    exact or_iff_right (NatSet.not_mem_empty q)
  mem_finals_iff := by
    intro q
    rw [h.mem_finals_iff]
    exact or_iff_right (NatSet.not_mem_empty q)

namespace IsReadBy

variable {p q : Nat}

/-- No edge leaves the extra final state. -/
theorem eq_nil_of_path (h : g.IsReadBy nfa) (hpath : nfa.Path g.acceptingState word q) :
    word = [] := by
  cases hpath with
  | refl => rfl
  | epsilon edge _ =>
      rw [h.epsilonTargets_eq] at edge
      contradiction
  | read edge _ =>
      obtain ⟨rule, -, hsource, -⟩ := h.mem_targets_iff.mp edge
      exact absurd hsource stateOf_ne_acceptingState

/-- A path from the state of a nonterminal to a final state applies one rule for
each terminal. -/
theorem generates_of_path (h : g.IsReadBy nfa) (hpath : nfa.Path p word q) (hq : q ∈ nfa.finals)
    (hn : g.stateOf n = .ok p) : g.Generates n word := by
  induction hpath generalizing n with
  | refl =>
      obtain ⟨rule, hrule, ⟨hbody, hhead⟩ | ⟨-, haccepting⟩⟩ := h.mem_finals_iff.mp hq
      · have hword : [] ∈ g.generated.ofForm rule.body := by
          rw [hbody]
          rfl
        have hgenerated := g.generated_solves rule hrule hword
        rwa [eq_of_stateOf hhead hn] at hgenerated
      · rw [haccepting] at hn
        exact absurd hn stateOf_ne_acceptingState
  | epsilon edge _ _ =>
      rw [h.epsilonTargets_eq] at edge
      contradiction
  | @read state middle last t word edge rest ih =>
      obtain ⟨rule, hrule, hhead, hbody⟩ := h.mem_targets_iff.mp edge
      have hword : t :: word ∈ g.generated.ofForm rule.body := by
        rcases hbody with ⟨hbody, htarget⟩ | ⟨m, hbody, hm⟩
        · rw [show middle = g.acceptingState from htarget] at rest
          rw [h.eq_nil_of_path rest, hbody, Reading.ofForm_singleton]
          rfl
        · rw [hbody, Reading.ofForm_cons, Reading.ofForm_singleton]
          exact ⟨[t], rfl, word, ih hq hm, rfl⟩
      have hgenerated := g.generated_solves rule hrule hword
      rwa [eq_of_stateOf hhead hn] at hgenerated

/-- The words that the states of the nonterminals accept. -/
def accepted (g : Grammar) (nfa : Nfa) : Reading :=
  fun n => {word | ∀ p, g.stateOf n = .ok p → ∃ q ∈ nfa.finals, nfa.Path p word q}

/-- What the states accept solves the rules. -/
theorem solves_accepted (h : g.IsReadBy nfa) (hrules : ∀ rule ∈ g.ruleSet, g.HasStates rule) :
    (accepted g nfa).Solves g.ruleSet := by
  intro rule hrule word hword p hp
  obtain ⟨-, hbody, hnil | ⟨t, hlast⟩ | ⟨t, n, honward⟩⟩ := hrules rule hrule
  · rw [hnil, Reading.ofForm_nil] at hword
    rw [show word = [] from hword]
    exact ⟨p, h.mem_finals_iff.mpr ⟨rule, hrule, Or.inl ⟨hnil, hp⟩⟩, Nfa.Path.refl p⟩
  · rw [hlast, Reading.ofForm_singleton] at hword
    rw [show word = [t] from hword]
    refine ⟨g.acceptingState, ?_, Nfa.Path.read ?_ (Nfa.Path.refl _)⟩
    · exact h.mem_finals_iff.mpr ⟨rule, hrule, Or.inr ⟨⟨t, hlast⟩, rfl⟩⟩
    · exact h.mem_targets_iff.mpr ⟨rule, hrule, hp, Or.inl ⟨hlast, rfl⟩⟩
  · rw [honward] at hbody hword
    obtain ⟨target, htarget⟩ := exists_stateOf (hbody (.nonterminal n) (by simp))
    obtain ⟨here, hhere, rest, hrest, rfl⟩ := hword
    rw [Reading.ofForm_singleton] at hrest
    rw [show here = [t] from hhere]
    obtain ⟨q, hq, hpath⟩ := hrest target htarget
    refine ⟨q, hq, Nfa.Path.read ?_ hpath⟩
    exact h.mem_targets_iff.mpr ⟨rule, hrule, hp, Or.inr ⟨n, honward, htarget⟩⟩

/-- The nondeterministic automaton recognizes the language of the grammar. -/
theorem recognizes_iff (h : g.IsReadBy nfa) (hrules : ∀ rule ∈ g.ruleSet, g.HasStates rule) :
    nfa.recognizes word = true ↔ g.HasWord word := by
  rw [Nfa.recognizes_iff_hasWord, Nfa.HasWord, h.start_eq]
  constructor
  · rintro ⟨q, hq, hpath⟩
    exact h.generates_of_path hpath hq g.stateOf_start
  · intro hword
    have hleast := generates_iff_mem_least.mp hword
    exact Reading.least_le (h.solves_accepted hrules) g.start hleast 0 g.stateOf_start

end IsReadBy

/-! ## The pipeline -/

theorem body_cases_of_isRegularRule (h : g.isRegularRule rule = true) :
    rule.body = [] ∨ (∃ t, rule.body = [.terminal t]) ∨
      ∃ t n, rule.body = [.terminal t, .nonterminal n] := by
  cases hform : RegularForm.ofBody? rule.body with
  | none => simp [isRegularRule, hform] at h
  | some form =>
      unfold RegularForm.ofBody? at hform
      split at hform <;> simp_all

theorem IsClosed.hasStates (hg : g.IsClosed) (h : g.isRegular = true) :
    ∀ rule ∈ g.rules.values, g.HasStates rule := by
  intro rule hrule
  rw [isRegular, Bool.and_eq_true] at h
  obtain ⟨id, hid⟩ := OrderedMap.mem_values_iff.mp hrule
  exact ⟨hg.head_declared hid, hg.body_declared hid,
    body_cases_of_isRegularRule (List.all_eq_true.mp h.1 rule hrule)⟩

end Grammar

/-- Both automata of a regular grammar exist and recognize its language. -/
theorem Grammar.exists_exact_regularAutomaton {text : String} {g : Grammar}
    (hg : ofText text = .ok g) (hregular : g.isRegular = true) :
    ∃ automata, g.regularAutomaton = .ok automata ∧ ∀ word,
      (automata.nfa.recognizes word = true ↔ g.HasWord word) ∧
      (automata.dfa.recognizes word = true ↔ g.HasWord word) := by
  have hstates := (isPlain_of_ofText hg).isClosed.hasStates hregular
  obtain ⟨nfa, hnfa, hadds⟩ :=
    exists_foldlM_addRegularRule hstates (Nfa.empty g.regularStates.length 0)
  have hread := isReadBy_of_adds hadds
  obtain ⟨dfa, hdfa, htraced⟩ := nfa.exists_toDfa
  refine ⟨⟨nfa, dfa, g.regularStates⟩, ?_, fun word => ?_⟩
  · rw [regularAutomaton, if_pos hregular]
    simp only [hnfa]
    change (nfa.toDfa >>= _) = _
    rw [hdfa]
    rfl
  · have hlanguage : nfa.recognizes word = true ↔ g.HasWord word := hread.recognizes_iff hstates
    exact ⟨hlanguage, htraced.recognizes_iff.trans hlanguage⟩

/-- A grammar with an epsilon rule and a nonterminal that derives nothing. -/
theorem Grammar.exists_exact_regularAutomaton_useless :
    ∃ g, Grammar.ofText "S -> a A | epsilon\nA -> b A | b | c B\nB -> c B\n" = .ok g ∧
      g.isRegular = true ∧ g.HasWord [] ∧ g.HasWord [1, 2, 2] ∧ ¬ g.HasWord [1, 3] := by
  have hcomputed : (Grammar.ofText
      "S -> a A | epsilon\nA -> b A | b | c B\nB -> c B\n").toOption.map
      (fun g => (g.isRegular, g.regularAutomaton.toOption.map fun automata =>
        (automata.nfa.recognizes [], automata.dfa.recognizes [1, 2, 2],
          automata.dfa.recognizes [1, 3]))) = some (true, some (true, true, false)) := by
    decide +kernel
  obtain ⟨g, hg, hcomputed⟩ := Grammar.exists_of_ofText hcomputed
  obtain ⟨hregular, hwords⟩ := Prod.mk.inj hcomputed
  obtain ⟨automata, hautomata, hlanguage⟩ := Grammar.exists_exact_regularAutomaton hg hregular
  rw [hautomata] at hwords
  simp only [Except.toOption, Option.map_some, Option.some.injEq, Prod.mk.injEq] at hwords
  obtain ⟨hempty, hlong, hshort⟩ := hwords
  refine ⟨g, hg, hregular, (hlanguage []).1.mp hempty, (hlanguage [1, 2, 2]).2.mp hlong, ?_⟩
  rw [← (hlanguage [1, 3]).2, hshort]
  decide

end GrammarAnalysis

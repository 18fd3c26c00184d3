import GrammarAnalysis.Proofs.Regex.Discovery
import GrammarAnalysis.Proofs.Regex.Elimination
import GrammarAnalysis.Proofs.Regex.Matching

/-!
# The expression that an automaton is turned into

What an automaton reads between two states are the words of the walks along its
edges.  Removing states keeps these words, no edge leads from the start to a state
that is left out, and so the two states that stay determine the words that lead
to a final state.
-/

namespace GrammarAnalysis

open Computability

variable {dfa : Dfa} {p q target : Nat}

/-! ## The edges of an automaton -/

namespace EdgeTable

theorem valueAt?_map_range {f : Nat → Adjacency} {states : Nat}
    (hf : ∀ r, (f p).get? q = some r → p < states) :
    valueAt? ((List.range states).map f) p q = (f p).get? q := by
  rw [valueAt?, List.getElem?_map]
  by_cases hp : p < states
  · rw [List.getElem?_range hp]
    rfl
  · rw [List.getElem?_eq_none (by rw [List.length_range]; omega)]
    cases hlabel : (f p).get? q with
    | none => rfl
    | some r => exact absurd (hf r hlabel) hp

end EdgeTable

namespace Dfa

theorem exists_transition_of_outgoing {r : Regex} (h : (dfa.outgoing p).get? q = some r) :
    ∃ t, dfa.transition? p t = some q :=
  isSome_get?_outgoing.mp (Option.isSome_iff_exists.mpr ⟨r, h⟩)

theorem label?_ofDfa (hd : dfa.IsInRange) (p q : Nat) :
    (EdgeTable.ofDfa dfa).label? p q = (dfa.outgoing p).get? q := by
  refine EdgeTable.valueAt?_map_range fun r hr => ?_
  obtain ⟨t, ht⟩ := exists_transition_of_outgoing hr
  exact (hd.transitions_lt ht).1

theorem isMirrored_ofDfa (hd : dfa.IsInRange) : (EdgeTable.ofDfa dfa).IsMirrored where
  length_eq := by simp [EdgeTable.ofDfa]
  mirror p q := by
    rw [label?_ofDfa hd, get?_outgoing_eq]
    refine EdgeTable.valueAt?_map_range fun r hr => ?_
    rw [← get?_outgoing_eq] at hr
    obtain ⟨t, ht⟩ := exists_transition_of_outgoing hr
    exact (hd.transitions_lt ht).2

theorem mem_language_ofDfa (hd : dfa.IsInRange) {word : List TerminalId} :
    word ∈ (EdgeTable.ofDfa dfa).language p q ↔
      ∃ t, word = [t] ∧ dfa.transition? p t = some q := by
  rw [← mem_language_outgoing, ← label?_ofDfa hd]
  rfl

theorem hasWords_ofDfa (hd : dfa.IsInRange) : (EdgeTable.ofDfa dfa).HasWords := by
  intro p q r hr
  have hedge := hr
  rw [label?_ofDfa hd] at hedge
  obtain ⟨t, ht⟩ := exists_transition_of_outgoing hedge
  refine ⟨[t], ?_⟩
  rw [← EdgeTable.language_of_label? hr]
  exact (mem_language_ofDfa hd).mpr ⟨t, rfl, ht⟩

/-- Reading a word is a walk along the edges. -/
theorem mem_walks_ofDfa_iff (hd : dfa.IsInRange) {word : List TerminalId} :
    word ∈ (EdgeTable.ofDfa dfa).language.walks p q ↔ dfa.read? p word = some q := by
  constructor
  · intro hwalk
    induction hwalk with
    | refl => rfl
    | edge first _ ih =>
        obtain ⟨t, rfl, ht⟩ := (mem_language_ofDfa hd).mp first
        rw [List.singleton_append, read?, ht]
        exact ih
  · intro hread
    induction word generalizing p with
    | nil =>
        rw [← Option.some.inj hread]
        exact Labelling.Reads.refl
    | cons t word ih =>
        rw [read?] at hread
        obtain ⟨next, ht, hread⟩ := Option.bind_eq_some_iff.mp hread
        exact Labelling.Reads.edge ((mem_language_ofDfa hd).mpr ⟨t, rfl, ht⟩) (ih hread)

/-! ## The edges that are left -/

/-- The states that are removed for a target. -/
def removed (dfa : Dfa) (target : Nat) : List Nat :=
  dfa.discoveryOrder.filter fun state => state ≠ dfa.start && state ≠ target

/-- The edges that are left for a target. -/
def remaining (dfa : Dfa) (target : Nat) : EdgeTable :=
  (dfa.removed target).foldl EdgeTable.eliminate (EdgeTable.ofDfa dfa)

theorem mem_removed_iff {state : Nat} :
    state ∈ dfa.removed target ↔
      state ∈ dfa.discoveryOrder ∧ state ≠ dfa.start ∧ state ≠ target := by
  rw [removed, List.mem_filter, Bool.and_eq_true, decide_eq_true_eq, decide_eq_true_eq]

theorem foldl_eliminate {edges : EdgeTable} (h : edges.IsMirrored) (hw : edges.HasWords)
    (states : List Nat) :
    (states.foldl EdgeTable.eliminate edges).HasWords ∧
      (states.foldl EdgeTable.eliminate edges).language =
        states.foldl Labelling.without edges.language := by
  induction states generalizing edges with
  | nil => exact ⟨hw, rfl⟩
  | cons state states ih =>
      rw [List.foldl_cons, List.foldl_cons, ← EdgeTable.language_eliminate h]
      exact ih (h.eliminate state) (hw.eliminate h state)

theorem hasWords_remaining (hd : dfa.IsInRange) (target : Nat) :
    (dfa.remaining target).HasWords :=
  (foldl_eliminate (isMirrored_ofDfa hd) (hasWords_ofDfa hd) _).1

theorem language_remaining (hd : dfa.IsInRange) (target : Nat) :
    (dfa.remaining target).language =
      (dfa.removed target).foldl Labelling.without (EdgeTable.ofDfa dfa).language :=
  (foldl_eliminate (isMirrored_ofDfa hd) (hasWords_ofDfa hd) _).2

theorem mem_walks_remaining_iff (hd : dfa.IsInRange) {word : List TerminalId} :
    word ∈ (dfa.remaining target).language.walks dfa.start target ↔
      dfa.read? dfa.start word = some target := by
  rw [language_remaining hd, Labelling.walks_foldl_without, mem_walks_ofDfa_iff hd]
  · exact fun h => (mem_removed_iff.mp h).2.1 rfl
  · exact fun h => (mem_removed_iff.mp h).2.2 rfl

/-- The edges that are left lead from a found state to the start or to the target. -/
theorem language_remaining_eq_zero (hd : dfa.IsInRange) (hp : p ∈ dfa.discoveryOrder)
    (hstart : q ≠ dfa.start) (h : q ∈ dfa.discoveryOrder → q ≠ target) :
    (dfa.remaining target).language p q = 0 := by
  rw [language_remaining hd]
  by_cases hq : q ∈ dfa.discoveryOrder
  · exact Labelling.foldl_without_eq_zero (Or.inl (mem_removed_iff.mpr ⟨hq, hstart, h hq⟩)) p
  · have hremoved : dfa.removed target ⊆ dfa.discoveryOrder := fun state hstate =>
      (mem_removed_iff.mp hstate).1
    refine Labelling.foldl_without_of_closed hremoved ?_ p hp q hq
    · intro p hp q hq
      refine EdgeTable.language_of_no_label ?_
      rw [label?_ofDfa hd]
      by_contra hlabel
      exact hq (mem_discoveryOrder_of_outgoing hp (Option.isSome_iff_ne_none.mpr hlabel))

/-! ## The expression of one final state -/

/-- If the start is the target, what is left is a loop. -/
theorem regexTo_start : dfa.regexTo dfa.discoveryOrder dfa.start =
    some ((((dfa.remaining dfa.start).label? dfa.start dfa.start).map Regex.repeated).getD
      .epsilon) := by
  rw [regexTo, if_pos rfl]
  rfl

/-- Around the start by its loop or by the target, if there is such a way. -/
def cycle? (dfa : Dfa) (target : Nat) (forth : Regex) : Option Regex :=
  let edges := dfa.remaining target
  let targetLoop := (edges.label? target target).map Regex.repeated
  let around := (edges.label? target dfa.start).map fun back =>
    Regex.concatAll (forth :: (targetLoop.toList ++ [back]))
  match edges.label? dfa.start dfa.start, around with
  | some loop, some around => some (loop.either around)
  | some loop, none => some loop
  | none, around => around

theorem regexTo_of_ne (hne : dfa.start ≠ target) :
    dfa.regexTo dfa.discoveryOrder target =
      ((dfa.remaining target).label? dfa.start target).map fun forth =>
        .concatAll (((dfa.cycle? target forth).map Regex.repeated).toList ++
          forth :: (((dfa.remaining target).label? target target).map Regex.repeated).toList) := by
  have hedges : (dfa.discoveryOrder.filter fun state => state ≠ dfa.start && state ≠ target).foldl
      EdgeTable.eliminate (EdgeTable.ofDfa dfa) = dfa.remaining target := rfl
  simp only [regexTo, if_neg hne, hedges]
  cases (dfa.remaining target).label? dfa.start target <;> rfl

theorem optionLanguage_cycle? {forth : Regex}
    (hforth : (dfa.remaining target).label? dfa.start target = some forth) :
    Regex.optionLanguage (dfa.cycle? target forth) =
      (dfa.remaining target).language dfa.start dfa.start +
        (dfa.remaining target).language dfa.start target *
          ((dfa.remaining target).language target target)∗ *
          (dfa.remaining target).language target dfa.start := by
  rw [EdgeTable.language_of_label? hforth]
  simp only [cycle?, EdgeTable.language]
  cases (dfa.remaining target).label? dfa.start dfa.start <;>
    cases (dfa.remaining target).label? target dfa.start <;>
    simp [Regex.chainLanguage_repeated, mul_assoc]

/-- The expression of a target denotes what is read between the start and the target. -/
theorem optionLanguage_regexTo (hd : dfa.IsInRange) (target : Nat) :
    Regex.optionLanguage (dfa.regexTo dfa.discoveryOrder target) =
      (dfa.remaining target).language.walks dfa.start target := by
  by_cases hstart : dfa.start = target
  · subst hstart
    rw [regexTo_start, Labelling.walks_self fun m hm => language_remaining_eq_zero hd
      (start_mem_discoveryOrder dfa) hm fun _ => hm, EdgeTable.language]
    cases (dfa.remaining dfa.start).label? dfa.start dfa.start <;> simp
  · rw [regexTo_of_ne hstart]
    have hfirst : ∀ m, m ≠ dfa.start → m ≠ target →
        (dfa.remaining target).language dfa.start m = 0 := fun m hm hm' =>
      language_remaining_eq_zero hd (start_mem_discoveryOrder dfa) hm fun _ => hm'
    cases hforth : (dfa.remaining target).label? dfa.start target with
    | none =>
        have hzero := EdgeTable.language_of_no_label hforth
        rw [Labelling.walks_eq_zero (fun m hm => ?_) hstart]
        · exact Regex.optionLanguage_none
        · by_cases hm' : m = target
          · rwa [hm']
          · exact hfirst m hm hm'
    | some forth =>
        -- the target is found, for otherwise no edge from the start would lead to it
        have hfound : target ∈ dfa.discoveryOrder := by
          by_contra hlost
          have hnone := (hasWords_remaining hd target).label?_eq_none
            (language_remaining_eq_zero hd (start_mem_discoveryOrder dfa) (Ne.symm hstart)
              fun h => absurd h hlost)
          rw [hforth] at hnone
          contradiction
        rw [Labelling.walks_pair hstart hfirst fun m hm hm' =>
          language_remaining_eq_zero hd hfound hm fun _ => hm', ← optionLanguage_cycle? hforth]
        simp [Regex.chainLanguage_repeated, EdgeTable.language, hforth]

theorem exists_word_of_regexTo (hd : dfa.IsInRange) {r : Regex}
    (h : dfa.regexTo dfa.discoveryOrder target = some r) : ∃ word, word ∈ r.language := by
  rw [← Regex.optionLanguage_some, ← h, optionLanguage_regexTo hd]
  by_cases hstart : dfa.start = target
  · rw [← hstart]
    exact ⟨[], Labelling.Reads.refl⟩
  · rw [regexTo_of_ne hstart] at h
    obtain ⟨forth, hforth, -⟩ := Option.map_eq_some_iff.mp h
    obtain ⟨word, hword⟩ := hasWords_remaining hd target _ _ _ hforth
    rw [← EdgeTable.language_of_label? hforth] at hword
    exact ⟨word, Labelling.edge_le_walks hword⟩

/-! ## The union over the final states -/

/-- The union of the expressions that are found for some targets. -/
def gather (found : Option Regex) (next : Option Regex) : Option Regex :=
  match next with
  | none => found
  | some regex =>
    match found with
    | some other => some (other.either regex)
    | none => some regex

theorem toRegex?_eq (dfa : Dfa) : dfa.toRegex? = (dfa.finals.toList.map
    (dfa.regexTo dfa.discoveryOrder)).foldl gather none := by
  rw [toRegex?, List.foldl_map]
  rfl

theorem optionLanguage_gather (found next : Option Regex) :
    Regex.optionLanguage (gather found next) =
      Regex.optionLanguage found + Regex.optionLanguage next := by
  cases found <;> cases next <;> simp [gather]

theorem isSome_gather (found next : Option Regex) :
    (gather found next).isSome ↔ found.isSome ∨ next.isSome := by
  cases found <;> cases next <;> simp [gather]

theorem foldl_gather (found : Option Regex) (rest : List (Option Regex)) :
    (∀ word, word ∈ Regex.optionLanguage (rest.foldl gather found) ↔
      word ∈ Regex.optionLanguage found ∨ ∃ next ∈ rest, word ∈ Regex.optionLanguage next) ∧
    ((rest.foldl gather found).isSome ↔ found.isSome ∨ ∃ next ∈ rest, next.isSome) := by
  induction rest generalizing found with
  | nil => simp
  | cons next rest ih =>
      obtain ⟨ihWords, ihSome⟩ := ih (gather found next)
      rw [List.foldl_cons]
      refine ⟨fun word => ?_, ?_⟩
      · rw [ihWords, optionLanguage_gather, Language.mem_add, List.exists_mem_cons_iff, or_assoc]
      · rw [ihSome, isSome_gather, List.exists_mem_cons_iff, or_assoc]

theorem recognizes_iff {word : List TerminalId} :
    dfa.recognizes word = true ↔
      ∃ target ∈ dfa.finals.toList, dfa.read? dfa.start word = some target := by
  rw [recognizes]
  cases dfa.read? dfa.start word with
  | none => simp
  | some state => simp

/-- The expression of an automaton denotes the words that the automaton recognizes. -/
theorem mem_optionLanguage_toRegex? (hd : dfa.IsInRange) {word : List TerminalId} :
    word ∈ Regex.optionLanguage dfa.toRegex? ↔ dfa.recognizes word = true := by
  rw [toRegex?_eq, (foldl_gather none _).1, recognizes_iff, Regex.optionLanguage_none]
  refine (or_iff_right (Language.notMem_zero word)).trans ?_
  simp only [List.mem_map, exists_exists_and_eq_and]
  refine exists_congr fun target => and_congr_right fun _ => ?_
  rw [optionLanguage_regexTo hd, mem_walks_remaining_iff hd]

/-- An automaton that recognizes no word has no expression. -/
theorem toRegex?_eq_none_iff (hd : dfa.IsInRange) :
    dfa.toRegex? = none ↔ ∀ word, dfa.recognizes word = false := by
  constructor
  · intro hnone word
    rw [← Bool.not_eq_true, ← mem_optionLanguage_toRegex? hd, hnone, Regex.optionLanguage_none]
    exact Language.notMem_zero word
  · intro hall
    by_contra hfound
    have hsome : dfa.toRegex?.isSome := Option.isSome_iff_ne_none.mpr hfound
    rw [toRegex?_eq, (foldl_gather none _).2] at hsome
    obtain ⟨next, hnext, hfound⟩ := hsome.resolve_left (by simp)
    obtain ⟨target, htarget, rfl⟩ := List.mem_map.mp hnext
    obtain ⟨r, hr⟩ := Option.isSome_iff_exists.mp hfound
    obtain ⟨word, hword⟩ := exists_word_of_regexTo hd hr
    have hfinal : dfa.recognizes word = true := by
      refine recognizes_iff.mpr ⟨target, htarget, (mem_walks_remaining_iff hd).mp ?_⟩
      rwa [← optionLanguage_regexTo hd, hr, Regex.optionLanguage_some]
    rw [hall word] at hfinal
    contradiction

/-- An automaton that is made from a list of transitions has no expression if and only if it
recognizes no word. Otherwise its expression denotes the recognized words, and matches them. -/
theorem synthesized_regex_exact {states start : Nat} {finals : List Nat}
    {transitions : List Transition} {dfa : Dfa}
    (h : ofTransitions states start finals transitions = .ok dfa) :
    (dfa.toRegex? = none ↔ ∀ word, dfa.recognizes word = false) ∧
      ∀ r, dfa.toRegex? = some r → ∀ word,
        (word ∈ r.language ↔ dfa.recognizes word = true) ∧
          r.isMatch word = dfa.recognizes word := by
  have hd := isInRange_of_ofTransitions h
  refine ⟨toRegex?_eq_none_iff hd, fun r hr word => ?_⟩
  have hlanguage : word ∈ r.language ↔ dfa.recognizes word = true := by
    rw [← Regex.optionLanguage_some, ← hr]
    exact mem_optionLanguage_toRegex? hd
  refine ⟨hlanguage, ?_⟩
  rw [Bool.eq_iff_iff, Regex.isMatch_iff_mem_language, hlanguage]

/-- An automaton with a loop at the start, a way back and a state that is not reached. -/
theorem synthesized_regex_exact_loops :
    ∃ dfa r, ofTransitions 4 0 [1, 3] [⟨0, 0, 0⟩, ⟨0, 1, 1⟩, ⟨1, 0, 2⟩, ⟨2, 1, 0⟩, ⟨3, 0, 1⟩] =
        .ok dfa ∧ dfa.toRegex? = some r ∧ r.isMatch [0, 1, 0, 1, 1] = true ∧
        ∀ word, (word ∈ r.language ↔ dfa.recognizes word = true) ∧
          r.isMatch word = dfa.recognizes word := by
  obtain ⟨dfa, hdfa⟩ : ∃ dfa, ofTransitions 4 0 [1, 3]
      [⟨0, 0, 0⟩, ⟨0, 1, 1⟩, ⟨1, 0, 2⟩, ⟨2, 1, 0⟩, ⟨3, 0, 1⟩] = .ok dfa := ⟨_, rfl⟩
  have hexact := synthesized_regex_exact hdfa
  obtain rfl := Except.ok.inj hdfa
  exact ⟨_, _, rfl, rfl, (hexact.2 _ rfl _).2.trans rfl, hexact.2 _ rfl⟩

end Dfa

end GrammarAnalysis

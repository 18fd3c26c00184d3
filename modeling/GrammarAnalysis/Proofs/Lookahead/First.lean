import Mathlib.Data.List.Nodup
import GrammarAnalysis.Lookahead.First
import GrammarAnalysis.Proofs.Collections.Maps
import GrammarAnalysis.Proofs.Collections.Sets
import GrammarAnalysis.Proofs.Iteration.Growth
import GrammarAnalysis.Proofs.Lookahead.Starts

/-!
# FIRST sets are exact

The FIRST set of a sentence of declared symbols holds exactly the terminals it
can start with, and the marker exactly if it vanishes.  Every pass keeps the
sets within these limits, and the last pass changes nothing, so that the sets
are closed under the rules.
-/

namespace GrammarAnalysis

/-- Whether the set holds nothing but what the symbols can start with. -/
def TerminalSet.Within (g : Grammar) (set : TerminalSet) (α : List Symbol) : Prop :=
  (set.epsilon = true → g.Vanishes α) ∧ ∀ t ∈ set.terminals, g.StartsWith t α

theorem TerminalSet.Within.union {g : Grammar} {s t : TerminalSet} {α : List Symbol}
    (hs : s.Within g α) (ht : t.Within g α) : (s ∪ t).Within g α := by
  constructor
  · rw [TerminalSet.epsilon_union, Bool.or_eq_true]
    rintro (he | he)
    · exact hs.1 he
    · exact ht.1 he
  · intro u hu
    rw [TerminalSet.terminals_union, NatSet.mem_union] at hu
    rcases hu with hu | hu
    · exact hs.2 u hu
    · exact ht.2 u hu

theorem TerminalSet.within_empty (g : Grammar) (α : List Symbol) :
    (∅ : TerminalSet).Within g α := by
  constructor <;> simp

/-- Whether the set holds everything that the other one holds. -/
theorem TerminalSet.of_union_eq_self {s t : TerminalSet} (h : s ∪ t = s) :
    (t.epsilon = true → s.epsilon = true) ∧ ∀ u ∈ t.terminals, u ∈ s.terminals := by
  constructor
  · intro ht
    rw [← h, TerminalSet.epsilon_union, ht, Bool.or_true]
  · intro u hu
    rw [← h, TerminalSet.terminals_union]
    exact NatSet.mem_union.mpr (Or.inr hu)

theorem TerminalSet.union_eq_self_iff {s t : TerminalSet} :
    s ∪ t = s ↔ (t.epsilon = true → s.epsilon = true) ∧ ∀ u ∈ t.terminals, u ∈ s.terminals := by
  constructor
  · exact TerminalSet.of_union_eq_self
  · rintro ⟨hmark, hmem⟩
    obtain ⟨ss, se⟩ := s
    obtain ⟨ts, te⟩ := t
    have hunion : (⟨ss, se⟩ ∪ ⟨ts, te⟩ : TerminalSet) = ⟨ss ∪ ts, se || te⟩ := rfl
    rw [hunion, TerminalSet.mk.injEq]
    constructor
    · refine NatSet.ext fun u => ?_
      rw [NatSet.mem_union]
      exact or_iff_left_of_imp (hmem u)
    · cases te with
      | false => exact Bool.or_false se
      | true => exact (Bool.or_true se).trans (hmark rfl).symm

theorem TerminalSet.union_union_self (s t : TerminalSet) : (s ∪ t) ∪ t = s ∪ t := by
  refine union_eq_self_iff.mpr ⟨fun ht => ?_, fun u hu => ?_⟩
  · rw [epsilon_union, ht, Bool.or_true]
  · exact NatSet.mem_union.mpr (Or.inr hu)

/-- A set that holds another one still does so when it is enlarged. -/
theorem TerminalSet.union_eq_self_of_union {s t : TerminalSet} (h : s ∪ t = s)
    (u : TerminalSet) : (s ∪ u) ∪ t = s ∪ u := by
  obtain ⟨hmark, hmem⟩ := union_eq_self_iff.mp h
  refine union_eq_self_iff.mpr ⟨fun ht => ?_, fun v hv => ?_⟩
  · rw [epsilon_union, hmark ht, Bool.true_or]
  · exact NatSet.mem_union.mpr (Or.inl (hmem v hv))

/-- The size of a set of terminals that are all declared. -/
theorem TerminalSet.Within.weight_le {g : Grammar} (hg : g.IsClosed) {set : TerminalSet}
    {α : List Symbol} (h : set.Within g α) (hα : ∀ symbol ∈ α, g.Declares symbol) :
    set.weight ≤ g.terminals.size + 1 := by
  have hsize : set.terminals.size ≤ g.terminals.keys.length :=
    NatSet.size_le_length fun t ht => (h.2 t ht).declared hg hα
  rw [OrderedMap.length_keys] at hsize
  have hmark : set.epsilon.toNat ≤ 1 := Bool.toNat_le _
  rw [TerminalSet.weight]
  omega

namespace FirstSets

variable {g : Grammar} {first : FirstSets}

/-- What every pass keeps: the keys of the symbols, the sets of the terminals,
and that no set holds too much. -/
structure Sound (g : Grammar) (first : FirstSets) : Prop where
  keys_eq : first.symbols.keys = (initial g).symbols.keys
  rules_known : ∀ id ∈ first.rules.keys, id ∈ g.rules.keys
  terminal : ∀ t ∈ g.terminals.keys, first.symbols.get? (.terminal t) = some (.singleton t)
  symbol : ∀ s set, first.symbols.get? s = some set → set.Within g [s]
  rule : ∀ id rule set, g.rules.get? id = some rule → first.rules.get? id = some set →
    set.Within g rule.body

theorem keys_initial : (initial g).symbols.keys =
    g.terminals.keys.map Symbol.terminal ++ g.nonterminals.keys.map Symbol.nonterminal := by
  rw [initial, OrderedMap.keys_ofList]
  · simp [Function.comp_def]
  · rw [List.map_append, List.map_map, List.map_map]
    refine List.nodup_append.mpr ⟨?_, ?_, ?_⟩
    · exact List.Nodup.map (fun _ _ h => by simpa using h) g.terminals.nodup
    · exact List.Nodup.map (fun _ _ h => by simpa using h) g.nonterminals.nodup
    · intro a ha b hb
      obtain ⟨t, -, rfl⟩ := List.mem_map.mp ha
      obtain ⟨n, -, rfl⟩ := List.mem_map.mp hb
      simp

theorem entries_initial : (initial g).symbols.entries =
    g.terminals.keys.map (fun t => (.terminal t, .singleton t)) ++
      g.nonterminals.keys.map fun n => (.nonterminal n, ∅) := by
  refine OrderedMap.entries_ofList ?_
  have := (initial g).symbols.nodup
  have hkeys := keys_initial (g := g)
  rw [OrderedMap.keys] at hkeys
  rw [hkeys] at this
  simpa [Function.comp_def] using this

theorem Sound.mem_keys (h : Sound g first) (s : Symbol) :
    s ∈ first.symbols.keys ↔ g.Declares s := by
  rw [h.keys_eq, keys_initial]
  cases s <;> simp [Grammar.Declares]

theorem sound_initial (g : Grammar) : Sound g (initial g) where
  keys_eq := rfl
  rules_known := by simp [initial, OrderedMap.keys, EmptyCollection.emptyCollection,
    OrderedMap.empty]
  terminal := by
    intro t ht
    rw [OrderedMap.get?_eq_some_iff, entries_initial]
    exact List.mem_append_left _ (List.mem_map_of_mem ht)
  symbol := by
    intro s set hset
    rw [OrderedMap.get?_eq_some_iff, entries_initial, List.mem_append] at hset
    rcases hset with hset | hset
    · obtain ⟨t, -, heq⟩ := List.mem_map.mp hset
      obtain ⟨rfl, rfl⟩ := Prod.mk.inj heq
      refine ⟨fun he => by simp [TerminalSet.singleton] at he, ?_⟩
      intro u hu
      exact Grammar.startsWith_singleton_iff.mpr (NatSet.mem_singleton.mp hu)
    · obtain ⟨n, -, heq⟩ := List.mem_map.mp hset
      obtain ⟨rfl, rfl⟩ := Prod.mk.inj heq
      exact TerminalSet.within_empty g _
  rule := by
    intro id rule set _ hset
    simp [initial] at hset

/-- Sound sets give sound sets of sentences. -/
theorem Sound.ofSentence_within (h : Sound g first) (α : List Symbol) :
    (first.ofSentence α).Within g α := by
  induction α with
  | nil => exact ⟨fun _ => .nil, by simp [ofSentence, TerminalSet.onlyEpsilon]⟩
  | cons s rest ih =>
      rw [ofSentence]
      cases hset : first.symbols.get? s with
      | none => exact TerminalSet.within_empty g _
      | some set =>
          have hs := h.symbol s set hset
          have hfront : ∀ u ∈ set.terminals, g.StartsWith u (s :: rest) := fun u hu =>
            Grammar.startsWith_cons_iff.mpr (Or.inl (hs.2 u hu))
          dsimp only
          split
          · next he =>
            refine ⟨fun hrest => Grammar.vanishes_cons_iff.mpr ⟨hs.1 he, ih.1 hrest⟩, ?_⟩
            intro u hu
            rcases NatSet.mem_union.mp hu with hu | hu
            · exact .behind (hs.1 he) (ih.2 u hu)
            · exact hfront u hu
          · exact ⟨fun he => by simp at he, hfront⟩

/-- The set of a sentence holds declared terminals only, whatever the symbols of the sentence. -/
theorem Sound.declared_of_mem (hg : g.IsClosed) (h : Sound g first) {α : List Symbol}
    {t : TerminalId} (ht : t ∈ (first.ofSentence α).terminals) : t ∈ g.terminals.keys := by
  induction α with
  | nil => exact absurd ht (NatSet.not_mem_empty t)
  | cons s rest ih =>
      rw [ofSentence] at ht
      cases hset : first.symbols.get? s with
      | none =>
          rw [hset] at ht
          exact absurd ht (NatSet.not_mem_empty t)
      | some set =>
          have hdeclared : g.Declares s := (h.mem_keys s).mp (OrderedMap.mem_keys_of_get? hset)
          have hown : t ∈ set.terminals → t ∈ g.terminals.keys := fun ht =>
            ((h.symbol s set hset).2 t ht).declared hg (by simpa using hdeclared)
          rw [hset] at ht
          dsimp only at ht
          split at ht
          · exact (NatSet.mem_union.mp ht).elim ih hown
          · exact hown ht

/-- Absorbing a rule of the grammar keeps the sets sound. -/
theorem Sound.absorb (hg : g.IsClosed) (h : Sound g first) {id : RuleId} {rule : Rule}
    (hrule : g.rules.get? id = some rule) : Sound g (first.absorb id rule) := by
  have hfound := h.ofSentence_within rule.body
  have hhead : Symbol.nonterminal rule.head ∈ first.symbols.keys :=
    (h.mem_keys _).mpr (hg.head_declared hrule)
  refine ⟨?_, ?_, ?_, ?_, ?_⟩
  · rw [FirstSets.absorb, OrderedMap.keys_upsert, if_pos hhead]
    exact h.keys_eq
  · intro j hj
    rw [FirstSets.absorb, OrderedMap.keys_upsert] at hj
    split at hj
    · exact h.rules_known j hj
    · rcases List.mem_append.mp hj with hj | hj
      · exact h.rules_known j hj
      · rw [List.mem_singleton.mp hj]
        exact OrderedMap.mem_keys_of_get? hrule
  · intro t ht
    rw [FirstSets.absorb, OrderedMap.get?_upsert, if_neg (by simp)]
    exact h.terminal t ht
  · intro s set hset
    rw [FirstSets.absorb, OrderedMap.get?_upsert] at hset
    split at hset
    · next hs =>
      rw [← Option.some.inj hset, hs]
      refine TerminalSet.Within.union ?_ ⟨fun he => .cons hrule (hfound.1 he) .nil,
        fun u hu => .inside hrule (hfound.2 u hu) []⟩
      cases hold : first.symbols.get? (.nonterminal rule.head) with
      | none => exact TerminalSet.within_empty g _
      | some old => exact h.symbol _ _ hold
    · exact h.symbol s set hset
  · intro j r set hr hset
    rw [FirstSets.absorb, OrderedMap.get?_upsert] at hset
    split at hset
    · next hj =>
      rw [hj, hrule] at hr
      rw [← Option.some.inj hset, ← Option.some.inj hr]
      refine TerminalSet.Within.union ?_ hfound
      cases hold : first.rules.get? id with
      | none => exact TerminalSet.within_empty g _
      | some old => exact h.rule id rule old hrule hold
    · exact h.rule j r set hr hset

theorem Sound.step (hg : g.IsClosed) (h : Sound g first) : Sound g (step g first) := by
  refine foldl_keeps (fun first entry hentry h => ?_) h
  exact h.absorb hg (OrderedMap.get?_eq_some_iff.mpr hentry)

/-! ## The last pass -/

/-- The number of sets together with their weights. -/
def weight (first : FirstSets) : Nat :=
  first.symbols.weight TerminalSet.weight + first.rules.weight TerminalSet.weight

theorem absorb_eq_self_or_weight_lt (first : FirstSets) (id : RuleId) (rule : Rule) :
    first.absorb id rule = first ∨ first.weight < (first.absorb id rule).weight := by
  have hgrow : ∀ v : TerminalSet, (some v).getD ∅ ∪ first.ofSentence rule.body = v ∨
      v.weight < ((some v).getD ∅ ∪ first.ofSentence rule.body).weight :=
    fun v => v.union_eq_self_or_weight_lt _
  have hsymbols := first.symbols.upsert_eq_self_or_weight_lt (.nonterminal rule.head)
    (f := fun set => set.getD ∅ ∪ first.ofSentence rule.body) hgrow
  have hrules := first.rules.upsert_eq_self_or_weight_lt id
    (f := fun set => set.getD ∅ ∪ first.ofSentence rule.body) hgrow
  simp only [weight, FirstSets.absorb]
  rcases hsymbols with hs | hs <;> rcases hrules with hr | hr
  · left
    rw [hs, hr]
  · right
    rw [hs]
    exact Nat.add_lt_add_left hr _
  · right
    rw [hr]
    exact Nat.add_lt_add_right hs _
  · right
    exact Nat.add_lt_add hs hr

/-- What the entry of a symbol can weigh: its set, and one for the entry. -/
def weightLimit (g : Grammar) : Symbol → Nat
  | .terminal _ => 2
  | .nonterminal _ => g.terminals.size + 2

theorem Sound.weight_le (hg : g.IsClosed) (h : Sound g first) :
    first.weight ≤ 2 * g.terminals.size +
      (g.nonterminals.size + g.rules.size) * (g.terminals.size + 2) := by
  have hsymbols : first.symbols.weight TerminalSet.weight ≤
      totalBy (weightLimit g) first.symbols.keys := by
    refine OrderedMap.weight_le_totalBy_keys fun s set hset => ?_
    have hget := OrderedMap.get?_eq_some_iff.mpr hset
    have hdeclared : g.Declares s := (h.mem_keys s).mp (OrderedMap.mem_keys_of_get? hget)
    cases s with
    | terminal t =>
        rw [h.terminal t hdeclared] at hget
        rw [← Option.some.inj hget]
        simp [weightLimit, TerminalSet.weight, TerminalSet.singleton, NatSet.size,
          NatSet.singleton, NatSet.insert, NatSet.insertAscending]
    | nonterminal n =>
        have := (h.symbol _ _ hget).weight_le hg (by simpa using hdeclared)
        simp only [weightLimit]
        omega
  have hrules : first.rules.weight TerminalSet.weight ≤
      totalBy (fun _ => g.terminals.size + 2) first.rules.keys := by
    refine OrderedMap.weight_le_totalBy_keys fun id set hset => ?_
    have hget := OrderedMap.get?_eq_some_iff.mpr hset
    obtain ⟨rule, hrule⟩ := OrderedMap.mem_keys_iff.mp
      (h.rules_known id (OrderedMap.mem_keys_of_get? hget))
    have := (h.rule id rule set hrule hget).weight_le hg (hg.body_declared hrule)
    omega
  have hcount : first.rules.keys.length ≤ g.rules.size := by
    rw [← OrderedMap.length_keys]
    exact (List.subperm_of_subset first.rules.nodup h.rules_known).length_le
  rw [h.keys_eq, keys_initial, totalBy_append, totalBy_eq_mul (c := 2) (by simp [weightLimit]),
    totalBy_eq_mul (c := g.terminals.size + 2) (by simp [weightLimit]), List.length_map,
    List.length_map, OrderedMap.length_keys, OrderedMap.length_keys] at hsymbols
  rw [totalBy_eq_mul (c := g.terminals.size + 2) (by simp)] at hrules
  have hmul := Nat.mul_le_mul_right (g.terminals.size + 2) hcount
  rw [weight, Nat.add_mul]
  omega

theorem weight_initial : 2 * g.terminals.size ≤ (initial g).weight := by
  have hsymbols : (initial g).symbols.weight TerminalSet.weight =
      g.terminals.size * 2 + g.nonterminals.size * 1 := by
    rw [OrderedMap.weight, entries_initial, totalBy_append, totalBy_eq_mul (c := 2),
      totalBy_eq_mul (c := 1), List.length_map, List.length_map, OrderedMap.length_keys,
      OrderedMap.length_keys]
    · simp [TerminalSet.weight, NatSet.size]
    · simp [TerminalSet.weight, TerminalSet.singleton, NatSet.size, NatSet.singleton,
        NatSet.insert, NatSet.insertAscending]
  rw [weight, hsymbols]
  omega

/-- The passes are enough to reach the largest weight. -/
theorem weight_lt_passBound : 2 * g.terminals.size +
      (g.nonterminals.size + g.rules.size) * (g.terminals.size + 2) <
    (initial g).weight + passBound g := by
  have hinitial := weight_initial (g := g)
  have hbound : (g.nonterminals.size + g.rules.size) * (g.terminals.size + 2) <
      passBound g := by
    rw [passBound]
    exact Nat.mul_lt_mul_of_pos_right (by omega) (by omega)
  omega

/-- The last pass changes nothing, so no rule adds anything. -/
theorem absorb_ofGrammar (hg : g.IsClosed) {id : RuleId} {rule : Rule}
    (hrule : g.rules.get? id = some rule) :
    (ofGrammar g).absorb id rule = ofGrammar g := by
  have hgrow : ∀ first : FirstSets, ∀ entry ∈ g.rules.entries,
      first.absorb entry.1 entry.2 = first ∨
        first.weight < (first.absorb entry.1 entry.2).weight :=
    fun first entry _ => absorb_eq_self_or_weight_lt first entry.1 entry.2
  have hfixed : FirstSets.step g (ofGrammar g) = ofGrammar g := by
    refine step_stabilize_eq (Sound g) weight (fun first h => h.step hg)
      (fun first _ => foldl_eq_self_or_lt hgrow first) (fun first h => h.weight_le hg)
      (sound_initial g) weight_lt_passBound
  exact idle_of_foldl_eq_self hgrow hfixed _ (OrderedMap.get?_eq_some_iff.mp hrule)

theorem sound_ofGrammar (hg : g.IsClosed) : Sound g (ofGrammar g) :=
  stabilize_induction (fun _ h => h.step hg) _ (sound_initial g)

/-! ## Exactness -/

/-- The set of a head holds what the body starts with. -/
theorem exists_head_set (hg : g.IsClosed) {id : RuleId} {rule : Rule}
    (hrule : g.rules.get? id = some rule) :
    ∃ set, (ofGrammar g).symbols.get? (.nonterminal rule.head) = some set ∧
      (((ofGrammar g).ofSentence rule.body).epsilon = true → set.epsilon = true) ∧
      ∀ t ∈ ((ofGrammar g).ofSentence rule.body).terminals, t ∈ set.terminals := by
  obtain ⟨set, hset⟩ := OrderedMap.mem_keys_iff.mp
    (((sound_ofGrammar hg).mem_keys (.nonterminal rule.head)).mpr (hg.head_declared hrule))
  refine ⟨set, hset, TerminalSet.of_union_eq_self ?_⟩
  have hidle := congrArg (fun first => first.symbols.get? (.nonterminal rule.head))
    (absorb_ofGrammar hg hrule)
  simpa [FirstSets.absorb, hset] using hidle

/-- A sentence that vanishes has the marker. -/
theorem epsilon_of_vanishes (hg : g.IsClosed) {α : List Symbol} (h : g.Vanishes α) :
    ((ofGrammar g).ofSentence α).epsilon = true := by
  induction h with
  | nil => rfl
  | @cons id rule rest hrule _ _ ihInside ihBehind =>
      obtain ⟨set, hset, hmark, -⟩ := exists_head_set hg hrule
      rw [ofSentence, hset]
      simp only [hmark ihInside, if_true]
      exact ihBehind

/-- The terminals a sentence of declared symbols starts with are in its set. -/
theorem mem_of_startsWith (hg : g.IsClosed) {α : List Symbol} {t : TerminalId}
    (hα : ∀ symbol ∈ α, g.Declares symbol) (h : g.StartsWith t α) :
    t ∈ ((ofGrammar g).ofSentence α).terminals := by
  induction h with
  | here rest =>
      have hset := (sound_ofGrammar hg).terminal t (hα (.terminal t) (by simp))
      rw [ofSentence, hset]
      simp [TerminalSet.singleton]
  | @inside id rule hrule _ rest ih =>
      obtain ⟨set, hset, -, hmem⟩ := exists_head_set hg hrule
      have ht := hmem t (ih (hg.body_declared hrule))
      rw [ofSentence, hset]
      dsimp only
      split
      · exact NatSet.mem_union.mpr (Or.inr ht)
      · exact ht
  | @behind s rest hvanishes _ ih =>
      have hmark := epsilon_of_vanishes hg hvanishes
      have ht := ih fun symbol hs => hα symbol (List.mem_cons_of_mem _ hs)
      rw [ofSentence] at hmark ⊢
      cases hset : (ofGrammar g).symbols.get? s with
      | none => simp [hset] at hmark
      | some set =>
          simp only [hset] at hmark ⊢
          split
          · exact NatSet.mem_union.mpr (Or.inl ht)
          · next he => simp [he] at hmark

/-- The marker is set exactly for the sentences that vanish. -/
theorem epsilon_ofSentence_iff (hg : g.IsClosed) {α : List Symbol} :
    ((ofGrammar g).ofSentence α).epsilon = true ↔ g.Vanishes α :=
  ⟨((sound_ofGrammar hg).ofSentence_within α).1, epsilon_of_vanishes hg⟩

/-- The FIRST set of a sentence of declared symbols is exact. -/
theorem mem_ofSentence_iff (hg : g.IsClosed) {α : List Symbol} {t : TerminalId}
    (hα : ∀ symbol ∈ α, g.Declares symbol) :
    t ∈ ((ofGrammar g).ofSentence α).terminals ↔ g.StartsWith t α :=
  ⟨((sound_ofGrammar hg).ofSentence_within α).2 t, mem_of_startsWith hg hα⟩

end FirstSets

end GrammarAnalysis

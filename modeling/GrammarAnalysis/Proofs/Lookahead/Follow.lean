import GrammarAnalysis.Lookahead.Follow
import GrammarAnalysis.Proofs.Lookahead.First

/-!
# FOLLOW sets are exact

A terminal follows a nonterminal if some body has the nonterminal in front of
symbols that start with the terminal, or in front of symbols that vanish when
the terminal follows the head; the end of input follows the start symbol.  The
FOLLOW sets hold exactly these terminals.
-/

namespace GrammarAnalysis

/-- Whether the terminal can come right after the nonterminal. -/
inductive Grammar.Follows (g : Grammar) : NonterminalId → TerminalId → Prop
  | start : Follows g g.start endOfInput
  | starts {id : RuleId} {rule : Rule} {before after : List Symbol} {n : NonterminalId}
      {t : TerminalId} (known : g.rules.get? id = some rule)
      (split : rule.body = before ++ .nonterminal n :: after) (starts : g.StartsWith t after) :
      Follows g n t
  | inherited {id : RuleId} {rule : Rule} {before after : List Symbol} {n : NonterminalId}
      {t : TerminalId} (known : g.rules.get? id = some rule)
      (split : rule.body = before ++ .nonterminal n :: after) (vanishes : g.Vanishes after)
      (follows : Follows g rule.head t) : Follows g n t

namespace Grammar

variable {g : Grammar}

theorem IsClosed.declares_of_split (hg : g.IsClosed) {id : RuleId} {rule : Rule}
    {before after : List Symbol} {n : NonterminalId} (hrule : g.rules.get? id = some rule)
    (hsplit : rule.body = before ++ .nonterminal n :: after) :
    n ∈ g.nonterminals.keys ∧ ∀ symbol ∈ after, g.Declares symbol := by
  have hbody := hg.body_declared hrule
  rw [hsplit] at hbody
  exact ⟨hbody (.nonterminal n) (by simp), fun symbol hs => hbody symbol (by simp [hs])⟩

theorem Follows.declared (hg : g.IsClosed) {n : NonterminalId} {t : TerminalId}
    (h : g.Follows n t) : n ∈ g.nonterminals.keys ∧ t ∈ g.terminals.keys := by
  induction h with
  | start => exact ⟨hg.start_declared, hg.endOfInput_declared⟩
  | starts known split starts =>
      obtain ⟨hn, hafter⟩ := hg.declares_of_split known split
      exact ⟨hn, starts.declared hg hafter⟩
  | inherited known split _ _ ih => exact ⟨(hg.declares_of_split known split).1, ih.2⟩

/-- What can come behind a nonterminal in a body that is itself followed. -/
theorem follows_of_startsWith {id : RuleId} {rule : Rule} {before after : List Symbol}
    {n : NonterminalId} {t u : TerminalId} (hrule : g.rules.get? id = some rule)
    (hsplit : rule.body = before ++ .nonterminal n :: after) (hfollows : g.Follows rule.head t)
    (hstarts : g.StartsWith u (after ++ [.terminal t])) : g.Follows n u := by
  rcases startsWith_append_iff.mp hstarts with hafter | ⟨hafter, hu⟩
  · exact .starts hrule hsplit hafter
  · rw [startsWith_singleton_iff.mp hu]
    exact .inherited hrule hsplit hafter hfollows

end Grammar

namespace FollowSets

variable {g : Grammar} {first : FirstSets} {follow : FollowSets}

/-! ## Occurrences -/

/-- The nonterminals of a sentence, each with the symbols behind it. -/
def occurrences : List Symbol → List (NonterminalId × List Symbol)
  | [] => []
  | .terminal _ :: rest => occurrences rest
  | .nonterminal n :: rest => (n, rest) :: occurrences rest

theorem mem_occurrences {body rest : List Symbol} {n : NonterminalId} :
    (n, rest) ∈ occurrences body ↔ ∃ before, body = before ++ .nonterminal n :: rest := by
  induction body with
  | nil => simp [occurrences]
  | cons s body ih =>
      have hcons : (∃ before, s :: body = before ++ .nonterminal n :: rest) ↔
          (s = .nonterminal n ∧ body = rest) ∨
            ∃ before, body = before ++ .nonterminal n :: rest := by
        constructor
        · rintro ⟨before, h⟩
          rcases List.cons_eq_append_iff.mp h with ⟨-, h⟩ | ⟨before, -, h⟩
          · obtain ⟨hs, hrest⟩ := List.cons.inj h
            exact Or.inl ⟨hs.symm, hrest.symm⟩
          · exact Or.inr ⟨before, h⟩
        · rintro (⟨rfl, rfl⟩ | ⟨before, rfl⟩)
          · exact ⟨[], rfl⟩
          · exact ⟨s :: before, rfl⟩
      rw [hcons, ← ih]
      cases s with
      | terminal t => simp [occurrences]
      | nonterminal m =>
          rw [occurrences, List.mem_cons, Prod.mk.injEq, Symbol.nonterminal.injEq,
            eq_comm (a := n), eq_comm (a := rest)]

/-- What a nonterminal in front of `rest` adds to its set. -/
def foundAt (first : FirstSets) (head : NonterminalId) (follow : FollowSets)
    (rest : List Symbol) : NatSet :=
  let suffix := first.ofSentence rest
  suffix.terminals ∪ if suffix.epsilon then (follow.sets.get? head).getD ∅ else ∅

/-- Absorbs one occurrence of a nonterminal. -/
def absorbAt (first : FirstSets) (head : NonterminalId) (follow : FollowSets)
    (occurrence : NonterminalId × List Symbol) : FollowSets :=
  ⟨follow.sets.upsert occurrence.1 fun set =>
    set.getD ∅ ∪ foundAt first head follow occurrence.2⟩

theorem absorb_eq_foldl (head : NonterminalId) (body : List Symbol) :
    follow.absorb first head body = (occurrences body).foldl (absorbAt first head) follow := by
  induction body generalizing follow with
  | nil => rfl
  | cons s body ih =>
      cases s with
      | terminal t => exact ih
      | nonterminal n => exact ih

/-! ## What every pass keeps -/

/-- Only declared nonterminals have sets, no set holds too much, and the end of
input follows the start symbol. -/
structure Sound (g : Grammar) (follow : FollowSets) : Prop where
  keys_eq : follow.sets.keys = g.nonterminals.keys
  follows : ∀ n set, follow.sets.get? n = some set → ∀ t ∈ set, g.Follows n t
  start : ∃ set, follow.sets.get? g.start = some set ∧ endOfInput ∈ set

theorem sound_initial (hg : g.IsClosed) : Sound g (initial g) := by
  have hnodup : ((g.nonterminals.keys.map fun n => (n, (∅ : NatSet))).map Prod.fst).Nodup := by
    have : ((g.nonterminals.keys.map fun n => (n, (∅ : NatSet))).map Prod.fst) =
        g.nonterminals.keys := by simp [Function.comp_def]
    rw [this]
    exact g.nonterminals.nodup
  have hempty : ∀ n set, (OrderedMap.ofList (g.nonterminals.keys.map fun n =>
      (n, (∅ : NatSet)))).get? n = some set → set = ∅ := by
    intro n set hset
    obtain ⟨m, -, heq⟩ := List.mem_map.mp ((OrderedMap.get?_ofList hnodup).mp hset)
    exact (Prod.mk.inj heq).2.symm
  refine ⟨?_, ?_, ?_⟩
  · have hkeys := OrderedMap.keys_ofList hnodup
    rw [List.map_map] at hkeys
    simp only [initial, OrderedMap.keys_upsert, hkeys]
    simp [Function.comp_def, hg.start_declared]
  · intro n set hset t ht
    rw [initial, OrderedMap.get?_upsert] at hset
    split at hset
    · next hn =>
      rw [← Option.some.inj hset, NatSet.mem_insert] at ht
      rcases ht with rfl | ht
      · rw [hn]
        exact .start
      · cases hold : (OrderedMap.ofList (g.nonterminals.keys.map fun n =>
            (n, (∅ : NatSet)))).get? g.start with
        | none => simp [hold] at ht
        | some old =>
            rw [hold, hempty _ _ hold] at ht
            simp at ht
    · rw [hempty n set hset] at ht
      simp at ht
  · have hget : ∃ set, (initial g).sets.get? g.start = some (NatSet.insert endOfInput set) := by
      rw [initial, OrderedMap.get?_upsert, if_pos rfl]
      exact ⟨_, rfl⟩
    obtain ⟨set, hset⟩ := hget
    exact ⟨_, hset, NatSet.mem_insert.mpr (Or.inl rfl)⟩

theorem Sound.mem_foundAt (hg : g.IsClosed) (h : Sound g follow) {id : RuleId} {rule : Rule}
    {n : NonterminalId} {rest : List Symbol} (hrule : g.rules.get? id = some rule)
    (hocc : (n, rest) ∈ occurrences rule.body) {t : TerminalId}
    (ht : t ∈ foundAt (.ofGrammar g) rule.head follow rest) : g.Follows n t := by
  obtain ⟨before, hsplit⟩ := mem_occurrences.mp hocc
  have hwithin := (FirstSets.sound_ofGrammar hg).ofSentence_within rest
  rcases NatSet.mem_union.mp ht with ht | ht
  · exact .starts hrule hsplit (hwithin.2 t ht)
  · split at ht
    · next hmark =>
      cases hset : follow.sets.get? rule.head with
      | none => simp [hset] at ht
      | some set =>
          rw [hset] at ht
          exact .inherited hrule hsplit (hwithin.1 hmark) (h.follows _ _ hset t ht)
    · simp at ht

theorem Sound.absorbAt (hg : g.IsClosed) (h : Sound g follow) {id : RuleId} {rule : Rule}
    (hrule : g.rules.get? id = some rule) {occurrence : NonterminalId × List Symbol}
    (hocc : occurrence ∈ occurrences rule.body) :
    Sound g (absorbAt (.ofGrammar g) rule.head follow occurrence) := by
  obtain ⟨n, rest⟩ := occurrence
  obtain ⟨before, hsplit⟩ := mem_occurrences.mp hocc
  have hn : n ∈ follow.sets.keys := by
    rw [h.keys_eq]
    exact (hg.declares_of_split hrule hsplit).1
  refine ⟨?_, ?_, ?_⟩
  · rw [FollowSets.absorbAt, OrderedMap.keys_upsert, if_pos hn]
    exact h.keys_eq
  · intro m set hset t ht
    rw [FollowSets.absorbAt, OrderedMap.get?_upsert] at hset
    split at hset
    · next hm =>
      rw [← Option.some.inj hset, NatSet.mem_union] at ht
      rw [hm]
      rcases ht with ht | ht
      · cases hold : follow.sets.get? n with
        | none => simp [hold] at ht
        | some old =>
            rw [hold] at ht
            exact h.follows n old hold t ht
      · exact h.mem_foundAt hg hrule hocc ht
    · exact h.follows m set hset t ht
  · obtain ⟨set, hset, hmem⟩ := h.start
    by_cases hs : g.start = n
    · refine ⟨set ∪ foundAt (.ofGrammar g) rule.head follow rest, ?_, ?_⟩
      · rw [FollowSets.absorbAt, OrderedMap.get?_upsert, if_pos hs, ← hs, hset]
        rfl
      · exact NatSet.mem_union.mpr (Or.inl hmem)
    · refine ⟨set, ?_, hmem⟩
      rw [FollowSets.absorbAt, OrderedMap.get?_upsert, if_neg hs]
      exact hset

theorem Sound.absorb (hg : g.IsClosed) (h : Sound g follow) {id : RuleId} {rule : Rule}
    (hrule : g.rules.get? id = some rule) :
    Sound g (follow.absorb (.ofGrammar g) rule.head rule.body) := by
  rw [absorb_eq_foldl]
  exact foldl_keeps (fun _ _ hocc h => h.absorbAt hg hrule hocc) h

theorem Sound.step (hg : g.IsClosed) (h : Sound g follow) :
    Sound g (step g (.ofGrammar g) follow) := by
  refine foldl_keeps (fun follow rule hmem h => ?_) h
  obtain ⟨id, hrule⟩ := OrderedMap.mem_values_iff.mp hmem
  exact h.absorb hg hrule

/-! ## The last pass -/

/-- The number of sets together with their sizes. -/
def weight (follow : FollowSets) : Nat := follow.sets.weight NatSet.size

theorem absorbAt_eq_self_or_weight_lt (first : FirstSets) (head : NonterminalId)
    (follow : FollowSets) (occurrence : NonterminalId × List Symbol) :
    absorbAt first head follow occurrence = follow ∨
      follow.weight < (absorbAt first head follow occurrence).weight := by
  have hgrow := follow.sets.upsert_eq_self_or_weight_lt occurrence.1
    (f := fun set => set.getD ∅ ∪ foundAt first head follow occurrence.2)
    fun v => v.union_eq_self_or_size_lt _
  rcases hgrow with h | h
  · left
    rw [absorbAt, h]
  · exact Or.inr h

theorem absorb_eq_self_or_weight_lt (first : FirstSets) (follow : FollowSets) (rule : Rule) :
    follow.absorb first rule.head rule.body = follow ∨
      follow.weight < (follow.absorb first rule.head rule.body).weight := by
  rw [absorb_eq_foldl]
  exact foldl_eq_self_or_lt
    (fun follow occurrence _ => absorbAt_eq_self_or_weight_lt first rule.head follow occurrence) _

theorem Sound.weight_le (hg : g.IsClosed) (h : Sound g follow) :
    follow.weight ≤ g.nonterminals.size * (g.terminals.size + 1) := by
  have hsets : follow.weight ≤ totalBy (fun _ => g.terminals.size + 1) follow.sets.keys := by
    refine OrderedMap.weight_le_totalBy_keys fun n set hset => ?_
    have hget := OrderedMap.get?_eq_some_iff.mpr hset
    have hsize : set.size ≤ g.terminals.keys.length :=
      NatSet.size_le_length fun t ht => ((h.follows n set hget t ht).declared hg).2
    rw [OrderedMap.length_keys] at hsize
    omega
  rw [totalBy_eq_mul (c := g.terminals.size + 1) (by simp), h.keys_eq,
    OrderedMap.length_keys] at hsets
  exact hsets

theorem sound_ofGrammar (hg : g.IsClosed) : Sound g (ofGrammar g (.ofGrammar g)) :=
  stabilize_induction (fun _ h => h.step hg) _ (sound_initial hg)

/-- The passes are enough to reach the largest weight. -/
theorem weight_lt_passBound : g.nonterminals.size * (g.terminals.size + 1) <
    (initial g).weight + passBound g := by
  have hbound : g.nonterminals.size * (g.terminals.size + 1) ≤
      (g.nonterminals.size + g.bodySize) * (g.terminals.size + 3) :=
    Nat.mul_le_mul (by omega) (by omega)
  rw [passBound, Nat.add_mul]
  omega

/-- The last pass changes nothing, so no occurrence adds anything. -/
theorem absorbAt_ofGrammar (hg : g.IsClosed) {id : RuleId} {rule : Rule}
    (hrule : g.rules.get? id = some rule) {n : NonterminalId} {before after : List Symbol}
    (hsplit : rule.body = before ++ .nonterminal n :: after) :
    absorbAt (.ofGrammar g) rule.head (ofGrammar g (.ofGrammar g)) (n, after) =
      ofGrammar g (.ofGrammar g) := by
  have hgrow : ∀ follow : FollowSets, ∀ rule ∈ g.rules.values,
      follow.absorb (.ofGrammar g) rule.head rule.body = follow ∨
        follow.weight < (follow.absorb (.ofGrammar g) rule.head rule.body).weight :=
    fun follow rule _ => absorb_eq_self_or_weight_lt _ follow rule
  have hfixed : FollowSets.step g (.ofGrammar g) (ofGrammar g (.ofGrammar g)) =
      ofGrammar g (.ofGrammar g) := by
    refine step_stabilize_eq (Sound g) weight (fun follow h => h.step hg)
      (fun follow _ => foldl_eq_self_or_lt hgrow follow) (fun follow h => h.weight_le hg)
      (sound_initial hg) weight_lt_passBound
  have hidle := idle_of_foldl_eq_self hgrow hfixed rule (OrderedMap.mem_values_of_get? hrule)
  rw [absorb_eq_foldl] at hidle
  exact idle_of_foldl_eq_self
    (fun follow occurrence _ => absorbAt_eq_self_or_weight_lt _ rule.head follow occurrence)
    hidle (n, after) (mem_occurrences.mpr ⟨before, hsplit⟩)

/-! ## Exactness -/

/-- The set of a nonterminal holds what each of its occurrences adds. -/
theorem mem_of_mem_foundAt (hg : g.IsClosed) {id : RuleId} {rule : Rule}
    (hrule : g.rules.get? id = some rule) {n : NonterminalId} {before after : List Symbol}
    (hsplit : rule.body = before ++ .nonterminal n :: after) {t : TerminalId}
    (ht : t ∈ foundAt (.ofGrammar g) rule.head (ofGrammar g (.ofGrammar g)) after) :
    t ∈ ((ofGrammar g (.ofGrammar g)).get? n).getD ∅ := by
  have hidle := congrArg (fun follow => follow.sets.get? n) (absorbAt_ofGrammar hg hrule hsplit)
  simp only [absorbAt, OrderedMap.get?_upsert, if_true] at hidle
  rw [FollowSets.get?, ← hidle, Option.getD_some]
  exact NatSet.mem_union.mpr (Or.inr ht)

/-- The FOLLOW set of a nonterminal is exact. -/
theorem mem_follow_iff (hg : g.IsClosed) {n : NonterminalId} {t : TerminalId} :
    t ∈ ((ofGrammar g (.ofGrammar g)).get? n).getD ∅ ↔ g.Follows n t := by
  constructor
  · intro ht
    cases hset : (ofGrammar g (.ofGrammar g)).get? n with
    | none => simp [hset] at ht
    | some set =>
        rw [hset] at ht
        exact (sound_ofGrammar hg).follows n set hset t ht
  · intro h
    induction h with
    | start =>
        obtain ⟨set, hset, hmem⟩ := (sound_ofGrammar hg).start
        rw [FollowSets.get?, hset]
        exact hmem
    | starts known split starts =>
        have hafter := (hg.declares_of_split known split).2
        refine mem_of_mem_foundAt hg known split (NatSet.mem_union.mpr (Or.inl ?_))
        exact (FirstSets.mem_ofSentence_iff hg hafter).mpr starts
    | inherited known split vanishes _ ih =>
        refine mem_of_mem_foundAt hg known split (NatSet.mem_union.mpr (Or.inr ?_))
        rw [if_pos ((FirstSets.epsilon_ofSentence_iff hg).mpr vanishes)]
        exact ih

end FollowSets

end GrammarAnalysis

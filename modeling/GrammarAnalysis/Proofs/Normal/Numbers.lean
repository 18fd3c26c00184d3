import GrammarAnalysis.Proofs.Grammar.Numbering
import GrammarAnalysis.Proofs.Normal.Edits

/-!
# Passes that run out of numbers

A pass that only adds rules and nonterminals hands out the numbers that follow those
in use, so its result tells whether there were enough of them: the pass ends exactly if
all numbers of its result lie below the last one.  Removing useless symbols numbers no
more rules than there are already, so it always ends.
-/

namespace GrammarAnalysis

theorem nextNumber_concat_self (used : List Nat) :
    nextNumber (used ++ [nextNumber used]) = nextNumber used + 1 := by
  rw [nextNumber, List.foldl_append]
  exact max_eq_right (Nat.le_succ _)

theorem nextNumber_le_iff {used : List Nat} {bound : Nat} (hbound : 0 < bound) :
    nextNumber used ≤ bound ↔ ∀ n ∈ used, n < bound := by
  refine ⟨fun h n hn => (lt_nextNumber hn).trans_le h, fun h => ?_⟩
  rw [nextNumber]
  refine foldl_keeps (P := fun next : Nat => next ≤ bound) ?_ hbound
  exact fun next n hn hnext => max_le hnext (h n hn)

namespace Definition

variable {d d' : Definition} {start : NonterminalId}

/-- Whether the numbers that are handed out next are the first ones above those in use. -/
structure IsTight (d : Definition) : Prop where
  terminals : d.nextTerminal = nextNumber d.terminals.keys
  nonterminals : d.nextNonterminal = nextNumber d.nonterminals.keys
  rules : d.nextRule = nextNumber d.rules.keys

theorem nextNumber_keys_insert {β : Type} {m : OrderedMap Nat β} {next : Nat}
    (h : next = nextNumber m.keys) (v : β) : next + 1 = nextNumber (m.insert next v).keys := by
  have hnew : next ∉ m.keys := fun hmem => (lt_nextNumber hmem).ne h
  rw [OrderedMap.keys_insert_of_not_mem hnew, h, nextNumber_concat_self]

namespace IsTight

theorem ensureRule (hd : d.IsTight) (head : NonterminalId) (body : List Symbol) :
    (d.ensureRule head body).2.IsTight := by
  rcases d.ensureRule_cases head body with h | h
  · rwa [h]
  · rw [h]
    exact { hd with rules := nextNumber_keys_insert hd.rules _ }

theorem freshNonterminal (hd : d.IsTight) (base : String) :
    (d.freshNonterminal base).2.IsTight :=
  { hd with nonterminals := nextNumber_keys_insert hd.nonterminals _ }

/-- A definition has had enough numbers exactly if those in use lie below the last one. -/
theorem fits_iff_inRange (hd : d.IsTight) : d.fits = true ↔ (d.finish start).InRange := by
  have hbound : 0 < lastNumber := by decide
  rw [fits_iff, hd.terminals, hd.nonterminals, hd.rules, nextNumber_le_iff hbound,
    nextNumber_le_iff hbound, nextNumber_le_iff hbound]
  exact ⟨fun h => ⟨h.1, h.2.1, h.2.2⟩, fun h => ⟨h.1, h.2, h.3⟩⟩

end IsTight

theorem Adds.isTight (h : d.Adds d') (hd : d.IsTight) : d'.IsTight := by
  induction h with
  | refl => exact hd
  | ensureRule _ head body ih => exact ih.ensureRule head body
  | freshNonterminal _ base ih => exact ih.freshNonterminal base

theorem nextRule_ensureRule_le (d : Definition) (head : NonterminalId) (body : List Symbol) :
    (d.ensureRule head body).2.nextRule ≤ d.nextRule + 1 := by
  rcases d.ensureRule_cases head body with h | h
  · rw [h]
    exact Nat.le_succ _
  · rw [h]
    exact Nat.le_refl _

/-- Adding a list of bodies draws at most one number for each of them. -/
theorem nextRule_ensureRules_le (d : Definition) (head : NonterminalId)
    (bodies : List (List Symbol)) :
    (d.ensureRules head bodies).nextRule ≤ d.nextRule + bodies.length := by
  rw [ensureRules]
  induction bodies generalizing d with
  | nil => exact Nat.le_refl _
  | cons body bodies ih =>
      have hrest := ih (d.ensureRule head body).2
      have hfirst := d.nextRule_ensureRule_le head body
      rw [List.foldl_cons, List.length_cons]
      omega

theorem nextRule_foldl_ensureRules_le {β : Type} (d : Definition) (head : β → NonterminalId)
    (bodies : β → List (List Symbol)) (entries : List β) :
    (entries.foldl (fun d entry => d.ensureRules (head entry) (bodies entry)) d).nextRule ≤
      d.nextRule + totalBy (fun entry => (bodies entry).length) entries := by
  induction entries generalizing d with
  | nil => exact Nat.le_refl _
  | cons entry entries ih =>
      have hrest := ih (d.ensureRules (head entry) (bodies entry))
      have hfirst := d.nextRule_ensureRules_le (head entry) (bodies entry)
      rw [List.foldl_cons, totalBy_cons]
      omega

/-- Copying a grammar draws at most one number for each of its rules. -/
theorem nextRule_copyRules_le (d : Definition) (g : Grammar) :
    (d.copyRules g).nextRule ≤ d.nextRule + g.rules.values.length := by
  have hcopied := d.nextRule_foldl_ensureRules_le Rule.head (fun rule => [rule.body])
    g.rules.values
  rwa [totalBy_eq_mul fun _ _ => List.length_singleton, Nat.mul_one] at hcopied

end Definition

namespace Grammar

open Definition (mem_keys_filterKeys keys_retain_subset)

variable {g g' : Grammar} {build : Definition → Definition}

theorem isTight_toDefinition (g : Grammar) : g.toDefinition.IsTight := ⟨rfl, rfl, rfl⟩

theorem rebuild?_eq_some_iff :
    g.rebuild? build = some g' ↔ (build g.toDefinition).fits = true ∧ g.rebuild build = g' := by
  rw [rebuild?]
  split <;> simp [*]

/-- A grammar is rebuilt exactly if the numbers that are used lie below the last one. -/
theorem rebuild?_eq (h : (build g.toDefinition).IsTight) :
    g.rebuild? build = if (g.rebuild build).InRange then some (g.rebuild build) else none := by
  rw [rebuild?]
  exact if_congr h.fits_iff_inRange rfl rfl

/-- There are fewer than the last number of different numbers that lie below it. -/
theorem length_lt_lastNumber {used : List Nat} (hnodup : used.Nodup) (hpos : ∀ n ∈ used, n ≠ 0)
    (hbelow : ∀ n ∈ used, n < lastNumber) : used.length < lastNumber := by
  have hsub : used ⊆ List.range' 1 (lastNumber - 1) := by
    intro n hn
    have hlt := hbelow n hn
    exact List.mem_range'_1.mpr ⟨Nat.pos_of_ne_zero (hpos n hn), by omega⟩
  have hlength := (List.subperm_of_subset hnodup hsub).length_le
  have hlast : 0 < lastNumber := by decide
  rw [List.length_range'] at hlength
  omega

/-- The rules of a plain grammar leave a number over. -/
theorem InRange.length_rules_lt (h : g.InRange) (hg : g.IsPlain) :
    g.rules.values.length < lastNumber := by
  have hlength := length_lt_lastNumber g.rules.nodup hg.rules_pos h.rules
  rwa [List.length_map, ← List.length_map (f := Prod.snd)] at hlength

/-- Its nonterminals do so, too. -/
theorem InRange.length_nonterminals_lt (h : g.InRange) (hg : g.IsPlain) :
    g.nonterminals.keys.length < lastNumber :=
  length_lt_lastNumber g.nonterminals.nodup hg.nonterminals_pos h.nonterminals

/-! ## The passes -/

theorem withoutLeftRecursion?_eq (g : Grammar) : g.withoutLeftRecursion? =
    if g.withoutLeftRecursion.InRange then some g.withoutLeftRecursion else none :=
  rebuild?_eq ((g.adds_recursionFree _).isTight g.isTight_toDefinition)

theorem withoutCommonPrefix?_eq (g : Grammar) : g.withoutCommonPrefix? =
    if g.withoutCommonPrefix.InRange then some g.withoutCommonPrefix else none :=
  rebuild?_eq ((g.adds_factored _).isTight g.isTight_toDefinition)

theorem withoutEpsilonRules?_eq (g : Grammar) : g.withoutEpsilonRules? =
    if g.withoutEpsilonRules.InRange then some g.withoutEpsilonRules else none :=
  rebuild?_eq ((g.adds_epsilonFree _).isTight g.isTight_toDefinition)

theorem withoutUnitRules?_eq (g : Grammar) : g.withoutUnitRules? =
    if g.withoutUnitRules.InRange then some g.withoutUnitRules else none :=
  rebuild?_eq ((g.adds_unitFree _).isTight g.isTight_toDefinition)

theorem withEmptyStart?_eq (g : Grammar) : g.withEmptyStart? =
    if g.withEmptyStart.InRange then some g.withEmptyStart else none := by
  obtain ⟨d, n, hadds, heq⟩ := g.exists_adds_emptyStart g.toDefinition
  have htight := hadds.isTight g.isTight_toDefinition
  refine rebuild?_eq ?_
  rw [heq]
  exact { htight with }

/-- Dropping symbols draws no numbers, so the copied rules decide. -/
theorem withoutUselessSymbols?_eq_some_iff :
    g.withoutUselessSymbols? = some g' ↔
      ((g.toDefinition.copyRules g).finish g.start).InRange ∧ g.withoutUselessSymbols = g' := by
  have htight := (Definition.Adds.copyRules g.toDefinition g).isTight g.isTight_toDefinition
  rw [withoutUselessSymbols?, rebuild?_eq_some_iff, ← htight.fits_iff_inRange]
  rfl

theorem inRange_of_withoutUselessSymbols? (h : g.withoutUselessSymbols? = some g') :
    g'.InRange := by
  obtain ⟨hcopied, rfl⟩ := withoutUselessSymbols?_eq_some_iff.mp h
  obtain ⟨keep, hkeep⟩ := g.exists_retain_useful g.toDefinition
  rw [withoutUselessSymbols, rebuild, hkeep]
  exact ⟨fun t ht => hcopied.terminals t (mem_keys_filterKeys.mp ht).1,
    fun n hn => hcopied.nonterminals n (mem_keys_filterKeys.mp hn).1,
    fun id hid => hcopied.rules id (keys_retain_subset hid)⟩

/-- A grammar keeps its numbers below the last one if only rules are added and there is one left
for each of them. -/
theorem InRange.finish (h : g.InRange) {d : Definition} (hadds : g.toDefinition.Adds d)
    (hnonterminals : d.nonterminals = g.nonterminals) (hroom : d.nextRule ≤ lastNumber)
    (start : NonterminalId) : (d.finish start).InRange := by
  refine ⟨fun t ht => ?_, fun n hn => h.nonterminals n ?_, fun id hid => ?_⟩
  · obtain ⟨name, hname⟩ := OrderedMap.mem_keys_iff.mp ht
    exact h.terminals t (OrderedMap.mem_keys_of_get? (hadds.edits.get?_terminals hname))
  · rwa [Definition.finish, hnonterminals] at hn
  · have hbelow : id < d.nextRule := by
      rw [(hadds.isTight g.isTight_toDefinition).rules]
      exact lt_nextNumber hid
    exact Nat.lt_of_lt_of_le hbelow hroom

/-- The rules of a grammar whose numbers lie below the last one can be copied. -/
theorem InRange.copyRules (h : g.InRange) (hg : g.IsPlain) :
    ((g.toDefinition.copyRules g).finish g.start).InRange := by
  refine h.finish (Definition.Adds.copyRules g.toDefinition g)
    (g.toDefinition.nonterminals_copyRules g) ?_ g.start
  have hnext : (g.toDefinition.copyRules g).nextRule ≤ 1 + g.rules.values.length :=
    g.toDefinition.nextRule_copyRules_le g
  have hroom := h.length_rules_lt hg
  omega

/-- Removing useless symbols always ends. -/
theorem withoutUselessSymbols?_eq (hg : g.IsPlain) (h : g.InRange) :
    g.withoutUselessSymbols? = some g.withoutUselessSymbols :=
  withoutUselessSymbols?_eq_some_iff.mpr ⟨h.copyRules hg, rfl⟩

end Grammar

end GrammarAnalysis

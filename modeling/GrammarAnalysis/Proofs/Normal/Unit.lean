import GrammarAnalysis.Normal.Unit
import GrammarAnalysis.Proofs.Grammar.Rebuild
import GrammarAnalysis.Proofs.Iteration.Exploration
import GrammarAnalysis.Proofs.Iteration.Settling

/-!
# Removing unit rules keeps the languages

The nonterminals reached through unit rules are collected until a pass finds none:
there are no more entries than pairs of rules.  What is collected is transitive,
so a word that is derived through unit rules first comes from a rule that the
nonterminal has taken over.
-/

namespace GrammarAnalysis

open Reading

/-! ## Collected targets -/

namespace UnitReach

variable {reach : UnitReach} {n m k : NonterminalId} {found : List NonterminalId}

/-- The targets that are known for a nonterminal. -/
def targets (reach : UnitReach) (n : NonterminalId) : List NonterminalId := (reach.get? n).getD []

theorem mem_targets_add :
    k ∈ (reach.add n found).targets m ↔ k ∈ reach.targets m ∨ m = n ∧ k ∈ found := by
  rw [targets, add, OrderedMap.get?_upsert]
  by_cases hm : m = n
  · subst hm
    rw [if_pos rfl, Option.getD_some, List.mem_append, mem_unseen, targets, and_iff_right rfl]
    by_cases hk : k ∈ (reach.get? m).getD []
    · simp [hk]
    · simp [hk]
  · rw [if_neg hm, or_iff_left fun h => hm h.1]
    rfl

theorem mem_onward_iff :
    k ∈ reach.onward n ↔ ∃ m ∈ reach.targets n, k ∈ reach.targets m ∧ k ≠ n := by
  simp only [onward, targets, List.mem_flatMap, List.mem_filter, decide_eq_true_eq]

/-- Adding targets changes nothing or makes the table heavier. -/
theorem add_eq_self_or_lt (reach : UnitReach) (n : NonterminalId) (found : List NonterminalId) :
    reach.add n found = reach ∨
      reach.weight List.length < (reach.add n found).weight List.length := by
  refine reach.upsert_eq_self_or_weight_lt n fun known => ?_
  rw [Option.getD_some, List.length_append]
  cases hnew : unseen known found with
  | nil => exact Or.inl (List.append_nil known)
  | cons first rest => exact Or.inr (Nat.lt_add_of_pos_right (Nat.succ_pos _))

theorem step_eq_self_or_lt (reach : UnitReach) :
    reach.step = reach ∨ reach.weight List.length < reach.step.weight List.length :=
  foldl_eq_self_or_lt (fun reach n _ => reach.add_eq_self_or_lt n _) _

/-! ### The report of a pass -/

theorem fst_applyReporting_insertNew (found known : List NonterminalId) :
    (applyReporting insertNew found known).1 = known ++ unseen known found := by
  induction found generalizing known with
  | nil => simp [applyReporting_nil, unseen]
  | cons n found ih =>
      rw [applyReporting_cons, ih, unseen, insertNew]
      split
      · rfl
      · have hsame : ∀ m, m ∈ known ++ [n] ↔ m ∈ n :: known := fun m => by
          rw [List.mem_append, List.mem_singleton, List.mem_cons, or_comm]
        rw [unseen_congr hsame, List.append_assoc, List.singleton_append]

theorem fst_insertTargets (hn : n ∈ reach.keys) :
    (reach.insertTargets n found).1 = reach.add n found := by
  obtain ⟨known, hknown⟩ := OrderedMap.mem_keys_iff.mp hn
  simp only [insertTargets, hknown]
  refine OrderedMap.eq_of_keys_eq ?_ fun m targets htargets => ?_
  · rw [add, OrderedMap.insert, OrderedMap.keys_upsert, OrderedMap.keys_upsert]
  · rw [OrderedMap.get?_insert, fst_applyReporting_insertNew] at htargets
    rw [add, OrderedMap.get?_upsert, hknown]
    exact htargets

theorem tellsGrowth_insertTargets (reach : UnitReach) (n : NonterminalId)
    (found : List NonterminalId) :
    TellsGrowth (OrderedMap.total List.length) reach (reach.insertTargets n found) := by
  cases hknown : reach.get? n with
  | none =>
      simp only [insertTargets, hknown]
      exact .idle _ reach
  | some known =>
      have htargets := tellsGrowth_applyReporting
        (fun known k (_ : k ∈ found) => tellsGrowth_insertNew known k) known
      have htotal := reach.total_upsert (w := List.length) n
        fun _ => (applyReporting insertNew found known).1
      rw [hknown, Option.elim_some] at htotal
      have hle := htargets.le
      simp only [insertTargets, hknown, OrderedMap.insert]
      constructor
      · change reach.total List.length ≤ (reach.upsert n _).total List.length
        omega
      · rw [htargets.iff]
        dsimp only
        omega

theorem keys_add_of_mem (hn : n ∈ reach.keys) : (reach.add n found).keys = reach.keys := by
  rw [add, OrderedMap.keys_upsert, if_pos hn]

/-- A pass finds the keys again, so that it adds to the targets of each of them. -/
theorem fst_pass (reach : UnitReach) : reach.pass.1 = reach.step := by
  refine fst_applyReporting_of_keeps (P := fun other : UnitReach => other.keys = reach.keys)
    (fun other n hn hkeys => ?_) (fun other n hn hkeys => ?_) rfl
  · rw [keys_add_of_mem (hkeys ▸ hn), hkeys]
  · exact fst_insertTargets (hkeys ▸ hn)

/-- A pass reports whether it has found new targets. -/
theorem tellsGrowth_pass (reach : UnitReach) :
    TellsGrowth (OrderedMap.total List.length) reach reach.pass :=
  tellsGrowth_applyReporting (fun reach n _ => reach.tellsGrowth_insertTargets n _) reach

/-! ### Targets of targets -/

/-- If a pass changes nothing, the known targets are transitive. -/
theorem mem_targets_of_step_eq_self (h : reach.step = reach) (hm : m ∈ reach.targets n)
    (hk : k ∈ reach.targets m) (hne : k ≠ n) : k ∈ reach.targets n := by
  have hkey : n ∈ reach.keys := by
    cases hn : reach.get? n with
    | none => simp [targets, hn] at hm
    | some found => exact OrderedMap.mem_keys_of_get? hn
  have hidle := idle_of_foldl_eq_self (fun reach n _ => reach.add_eq_self_or_lt n _) h n hkey
  rw [← hidle]
  exact mem_targets_add.mpr (Or.inr ⟨rfl, mem_onward_iff.mpr ⟨m, hm, hk, hne⟩⟩)

/-- Whether the keys are those given and each key has targets of its own that are all listed. -/
structure IsWithin (keys listed : List NonterminalId) (reach : UnitReach) : Prop where
  keys_eq : reach.keys = keys
  nodup : ∀ n found, reach.get? n = some found → found.Nodup
  subset : ∀ n, reach.targets n ⊆ listed

theorem nodup_append_unseen {known : List NonterminalId} (h : known.Nodup)
    (found : List NonterminalId) : (known ++ unseen known found).Nodup := by
  refine List.nodup_append.mpr ⟨h, nodup_unseen _ _, fun a ha b hb hab => ?_⟩
  exact (mem_unseen.mp hb).2 (hab ▸ ha)

theorem nodup_add (h : ∀ n found, reach.get? n = some found → found.Nodup) :
    ∀ m known, (reach.add n found).get? m = some known → known.Nodup := by
  intro m known hm
  rw [add, OrderedMap.get?_upsert] at hm
  split at hm
  · rw [← Option.some.inj hm]
    refine nodup_append_unseen ?_ _
    cases hknown : reach.get? n with
    | none => exact List.nodup_nil
    | some known => exact h n known hknown
  · exact h m known hm

theorem IsWithin.step {keys listed : List NonterminalId} (h : IsWithin keys listed reach) :
    IsWithin keys listed reach.step := by
  have hkeys := h.keys_eq
  refine foldl_keeps (fun reach n hn h => ?_) h
  refine ⟨?_, nodup_add h.nodup, fun m k hk => ?_⟩
  · rw [keys_add_of_mem (by rwa [h.keys_eq, ← hkeys])]
    exact h.keys_eq
  · rcases mem_targets_add.mp hk with hk | ⟨-, hk⟩
    · exact h.subset m hk
    · obtain ⟨j, -, hk, -⟩ := mem_onward_iff.mp hk
      exact h.subset j hk

theorem IsWithin.weight_le {keys listed : List NonterminalId} (h : IsWithin keys listed reach) :
    reach.weight List.length ≤ keys.length * (1 + listed.length) := by
  have hentries : ∀ n found, (n, found) ∈ reach.entries → 1 + found.length ≤ 1 + listed.length := by
    intro n found hentry
    have hn : reach.get? n = some found := OrderedMap.get?_eq_some_iff.mpr hentry
    have hsubset : found ⊆ listed := fun k hk => h.subset n (by rwa [targets, hn])
    have hlength := (List.subperm_of_subset (h.nodup n found hn) hsubset).length_le
    omega
  have hweight : reach.weight List.length ≤ totalBy (fun _ => 1 + listed.length) reach.keys :=
    OrderedMap.weight_le_totalBy_keys hentries
  rwa [h.keys_eq, totalBy_eq_mul fun _ _ => rfl] at hweight

/-- A pass that finds no new target changes nothing. -/
theorem IsWithin.step_eq_self {keys listed : List NonterminalId} (h : IsWithin keys listed reach)
    (hsize : reach.step.total List.length = reach.total List.length) : reach.step = reach := by
  have hkeys : reach.step.keys = reach.keys := h.step.keys_eq.trans h.keys_eq.symm
  refine reach.step_eq_self_or_lt.resolve_right ?_
  rw [OrderedMap.weight_eq_total_add, OrderedMap.weight_eq_total_add, hkeys, hsize]
  exact Nat.lt_irrefl _

/-- A table has at least the weight of its keys. -/
theorem length_keys_le_weight (reach : UnitReach) : reach.keys.length ≤ reach.weight List.length := by
  rw [OrderedMap.keys, OrderedMap.weight, List.length_map]
  induction reach.entries with
  | nil => exact Nat.le_refl _
  | cons entry rest ih =>
      rw [List.length_cons, totalBy_cons]
      omega

end UnitReach

/-! ## The targets of a grammar -/

namespace Grammar

variable {g : Grammar} {n m k : NonterminalId} {reach : UnitReach}

theorem isUnitBody_iff {body : List Symbol} :
    isUnitBody body = true ↔ ∃ m, body = [.nonterminal m] := by
  constructor
  · intro h
    match body with
    | [.nonterminal m] => exact ⟨m, rfl⟩
    | [] | [.terminal _] | _ :: _ :: _ => simp [isUnitBody] at h
  · rintro ⟨m, rfl⟩
    rfl

/-- The nonterminals that are the bodies of unit rules. -/
def unitTargets (g : Grammar) : List NonterminalId :=
  g.rules.values.filterMap fun rule =>
    match rule.body with
    | [.nonterminal m] => some m
    | _ => none

theorem mem_unitTargets {rule : Rule} (hrule : rule ∈ g.ruleSet) (hbody : rule.body = [.nonterminal m]) :
    m ∈ g.unitTargets :=
  List.mem_filterMap.mpr ⟨rule, hrule, by rw [hbody]⟩

/-- One rule adds its target, if it is a unit rule to another nonterminal. -/
def addDirect (reach : UnitReach) (rule : Rule) : UnitReach :=
  match rule.body with
  | [.nonterminal m] => if m = rule.head then reach else reach.add rule.head [m]
  | _ => reach

theorem directUnitReach_eq (g : Grammar) : g.directUnitReach = g.rules.values.foldl addDirect ∅ :=
  rfl

theorem mem_targets_addDirect {rule : Rule} :
    k ∈ (addDirect reach rule).targets n ↔ k ∈ reach.targets n ∨
      n = rule.head ∧ rule.body = [.nonterminal k] ∧ k ≠ rule.head := by
  rw [addDirect]
  split
  · next m hbody =>
    rw [hbody]
    by_cases hm : m = rule.head
    · rw [if_pos hm]
      refine (or_iff_left ?_).symm
      rintro ⟨-, hk, hne⟩
      simp only [List.cons.injEq, Symbol.nonterminal.injEq, and_true] at hk
      exact hne (hk ▸ hm)
    · rw [if_neg hm, UnitReach.mem_targets_add, List.mem_singleton]
      refine or_congr_right (and_congr_right fun _ => ?_)
      constructor
      · rintro rfl
        exact ⟨rfl, hm⟩
      · rintro ⟨hk, -⟩
        simp only [List.cons.injEq, Symbol.nonterminal.injEq, and_true] at hk
        exact hk.symm
  · next hbody =>
    exact (or_iff_left fun h => hbody k h.2.1).symm

/-- The direct targets are those of the unit rules to another nonterminal. -/
theorem mem_targets_directUnitReach :
    k ∈ g.directUnitReach.targets n ↔ ⟨n, [.nonterminal k]⟩ ∈ g.ruleSet ∧ k ≠ n := by
  have hfold : ∀ (rules : List Rule) (reach : UnitReach),
      k ∈ (rules.foldl addDirect reach).targets n ↔
        k ∈ reach.targets n ∨ ⟨n, [.nonterminal k]⟩ ∈ rules ∧ k ≠ n := by
    intro rules
    induction rules with
    | nil => simp
    | cons rule rules ih =>
        intro reach
        rw [List.foldl_cons, ih, mem_targets_addDirect, or_assoc]
        refine or_congr_right ?_
        rw [List.mem_cons, or_and_right]
        refine or_congr_left ?_
        constructor
        · rintro ⟨rfl, hbody, hne⟩
          exact ⟨by rw [← hbody], hne⟩
        · rintro ⟨rfl, hne⟩
          exact ⟨rfl, rfl, hne⟩
  rw [directUnitReach_eq, hfold]
  exact or_iff_right fun h => List.not_mem_nil h

theorem isWithin_directUnitReach (g : Grammar) :
    UnitReach.IsWithin g.directUnitReach.keys g.unitTargets g.directUnitReach := by
  refine ⟨rfl, ?_, fun n k hk => ?_⟩
  · rw [directUnitReach_eq]
    refine foldl_keeps (P := fun reach : UnitReach =>
      ∀ n found, reach.get? n = some found → found.Nodup) (fun reach rule _ h => ?_) (by simp)
    rw [addDirect]
    split
    · split
      · exact h
      · exact UnitReach.nodup_add h
    · exact h
  · exact mem_unitTargets (mem_targets_directUnitReach.mp hk).1 rfl

theorem length_keys_directUnitReach (g : Grammar) :
    g.directUnitReach.keys.length ≤ g.rules.size := by
  have hheads : g.directUnitReach.keys ⊆ g.rules.values.map Rule.head := by
    rw [directUnitReach_eq]
    refine foldl_keeps (P := fun reach : UnitReach => reach.keys ⊆ g.rules.values.map Rule.head)
      (fun reach rule hrule h => ?_) (List.nil_subset _)
    have hhead : rule.head ∈ g.rules.values.map Rule.head := List.mem_map_of_mem hrule
    rw [addDirect]
    split
    · split
      · exact h
      · rw [UnitReach.add, OrderedMap.keys_upsert]
        split
        · exact h
        · exact List.append_subset.mpr ⟨h, List.cons_subset.mpr ⟨hhead, List.nil_subset _⟩⟩
    · exact h
  have hlength : g.directUnitReach.keys.length ≤ (g.rules.values.map Rule.head).length :=
    (List.subperm_of_subset g.directUnitReach.nodup hheads).length_le
  rwa [List.length_map, OrderedMap.values, List.length_map] at hlength

/-- The keys stay the same and each has at most all targets, so the passes are enough. -/
theorem targetLimit_lt_passBound (g : Grammar) :
    g.directUnitReach.keys.length * (1 + g.unitTargets.length) <
      g.directUnitReach.weight List.length + (g.rules.size * g.rules.size + 1) := by
  have hkeys := length_keys_directUnitReach g
  have htargets : g.unitTargets.length ≤ g.rules.size :=
    (List.length_filterMap_le _ _).trans (List.length_map _).le
  have hlimit : g.directUnitReach.keys.length * (1 + g.unitTargets.length) ≤
      g.directUnitReach.weight List.length + g.rules.size * g.rules.size := by
    rw [Nat.mul_add, Nat.mul_one]
    exact Nat.add_le_add g.directUnitReach.length_keys_le_weight (Nat.mul_le_mul hkeys htargets)
  omega

/-- The loop for the targets ends, and it ends with the targets of the grammar. -/
theorem settles_unitReach (g : Grammar) :
    Settles UnitReach.pass g.directUnitReach g.unitReach :=
  settles_stabilize_of_eq_self (UnitReach.IsWithin g.directUnitReach.keys g.unitTargets)
    (OrderedMap.total List.length) (OrderedMap.weight List.length)
    (fun reach _ => reach.fst_pass) (fun reach _ => reach.tellsGrowth_pass) (fun _ h => h.step)
    (fun reach _ => reach.step_eq_self_or_lt) (fun _ h => h.step_eq_self) (fun _ h => h.weight_le)
    (isWithin_directUnitReach g) (targetLimit_lt_passBound g)

/-- A further pass finds no more targets. -/
theorem step_unitReach (g : Grammar) : g.unitReach.step = g.unitReach :=
  step_stabilize_eq (UnitReach.IsWithin g.directUnitReach.keys g.unitTargets)
    (OrderedMap.weight List.length) (fun _ h => h.step) (fun reach _ => reach.step_eq_self_or_lt)
    (fun _ h => h.weight_le) (isWithin_directUnitReach g) (targetLimit_lt_passBound g)

/-- The targets of the unit rules are found. -/
theorem mem_targets_unitReach_of_rule (hrule : ⟨n, [.nonterminal k]⟩ ∈ g.ruleSet) (hne : k ≠ n) :
    k ∈ g.unitReach.targets n := by
  refine stabilize_induction (P := fun reach : UnitReach => k ∈ reach.targets n)
    (fun reach h => ?_) _ (mem_targets_directUnitReach.mpr ⟨hrule, hne⟩)
  exact foldl_keeps (P := fun reach : UnitReach => k ∈ reach.targets n)
    (fun reach m _ h => UnitReach.mem_targets_add.mpr (Or.inl h)) h

/-- Whether a nonterminal derives all words of its known targets. -/
def DerivesTargets (g : Grammar) (reach : UnitReach) : Prop :=
  ∀ n k, k ∈ reach.targets n → least g.ruleSet k ≤ least g.ruleSet n

theorem derivesTargets_directUnitReach (g : Grammar) : g.DerivesTargets g.directUnitReach := by
  intro n k hk
  have hrule := solves_least g.ruleSet _ (mem_targets_directUnitReach.mp hk).1
  rwa [ofForm_singleton] at hrule

theorem DerivesTargets.step (h : g.DerivesTargets reach) : g.DerivesTargets reach.step := by
  refine foldl_keeps (P := g.DerivesTargets) (fun reach m _ h n k hk => ?_) h
  rcases UnitReach.mem_targets_add.mp hk with hk | ⟨rfl, hk⟩
  · exact h n k hk
  · obtain ⟨j, hj, hk, -⟩ := UnitReach.mem_onward_iff.mp hk
    exact (h j k hk).trans (h n j hj)

theorem derivesTargets_unitReach (g : Grammar) : g.DerivesTargets g.unitReach :=
  stabilize_induction (fun _ h => h.step) _ g.derivesTargets_directUnitReach

/-! ## The pass -/

/-- The rules of `n` without unit rules are the other rules of `n` and of what it reaches. -/
theorem mem_unitFreeBodies {body : List Symbol} :
    body ∈ g.unitFreeBodies g.unitReach n ↔ isUnitBody body = false ∧
      ∃ source, (source = n ∨ source ∈ g.unitReach.targets n) ∧ ⟨source, body⟩ ∈ g.ruleSet := by
  simp only [unitFreeBodies, List.mem_flatMap, List.mem_filter, Bool.not_eq_true', List.mem_cons,
    mem_bodiesOf, UnitReach.targets]
  constructor
  · rintro ⟨source, hsource, hrule, hunit⟩
    exact ⟨hunit, source, hsource, hrule⟩
  · rintro ⟨hunit, source, hsource, hrule⟩
    exact ⟨source, hsource, hrule, hunit⟩

/-- The rules of the grammar without unit rules. -/
theorem mem_ruleSet_withoutUnitRules (hg : g.IsPlain) :
    g.withoutUnitRules.IsPlain ∧ g.withoutUnitRules.start = g.start ∧
      ∀ rule, rule ∈ g.withoutUnitRules.ruleSet ↔ rule.head ∈ g.nonterminals.keys ∧
        rule.body ∈ g.unitFreeBodies g.unitReach rule.head := by
  have hadmits : ∀ n ∈ g.nonterminals.keys, ∀ rule ∈ rulesFor n (g.unitFreeBodies g.unitReach n),
      g.toDefinition.Admits rule := by
    rintro n hn ⟨_, body⟩ ⟨rfl, hbody⟩
    obtain ⟨-, source, -, hrule⟩ := mem_unitFreeBodies.mp hbody
    exact ⟨declaresSymbol_toDefinition.mpr hn, (hg.admits _ hrule).body⟩
  obtain ⟨hplain, hstart, hrules⟩ : g.withoutUnitRules.IsPlain ∧
      g.withoutUnitRules.start = g.start ∧ g.withoutUnitRules.ruleSet = _ :=
    isPlain_rebuild_ensureRules (fun n => n) (g.unitFreeBodies g.unitReach) hg hadmits
  refine ⟨hplain, hstart, fun rule => (Set.ext_iff.mp hrules rule).trans ?_⟩
  constructor
  · rintro ⟨n, hn, rfl, hbody⟩
    exact ⟨hn, hbody⟩
  · rintro ⟨hn, hbody⟩
    exact ⟨rule.head, hn, rfl, hbody⟩

theorem isUnitBody_of_withoutUnitRules (hg : g.IsPlain) :
    ∀ rule ∈ g.withoutUnitRules.ruleSet, isUnitBody rule.body = false := by
  intro rule hrule
  have hbody := (((mem_ruleSet_withoutUnitRules hg).2.2 rule).mp hrule).2
  exact (mem_unitFreeBodies.mp hbody).1

/-- What is derived from a target through other rules is derived without unit rules. -/
theorem least_withoutUnitRules_le_of_mem_targets (hg : g.IsPlain) (hn : n ∈ g.nonterminals.keys)
    (hk : k ∈ g.unitReach.targets n) :
    least g.withoutUnitRules.ruleSet k ≤ least g.withoutUnitRules.ruleSet n := by
  obtain ⟨-, -, hrules⟩ := mem_ruleSet_withoutUnitRules hg
  intro word hword
  obtain ⟨⟨_, body⟩, hrule, rfl, hform⟩ := exists_rule_of_mem_least hword
  obtain ⟨hunit, source, hsource, hbody⟩ := mem_unitFreeBodies.mp ((hrules _).mp hrule).2
  refine solves_least _ ⟨n, body⟩ ((hrules _).mpr ⟨hn, mem_unitFreeBodies.mpr
    ⟨hunit, source, ?_, hbody⟩⟩) hform
  by_cases hself : source = n
  · exact Or.inl hself
  · right
    rcases hsource with rfl | hsource
    · exact hk
    · exact UnitReach.mem_targets_of_step_eq_self (step_unitReach g) hk hsource hself

/-- Without unit rules every nonterminal derives the same words. -/
theorem generates_withoutUnitRules_iff (hg : g.IsPlain) {word : List TerminalId} :
    g.withoutUnitRules.Generates n word ↔ g.Generates n word := by
  obtain ⟨-, -, hrules⟩ := mem_ruleSet_withoutUnitRules hg
  rw [generates_iff_mem_least, generates_iff_mem_least]
  constructor
  · intro h
    refine least_le (fun rule hrule => ?_) n h
    obtain ⟨-, source, hsource, hbody⟩ := mem_unitFreeBodies.mp ((hrules rule).mp hrule).2
    refine (solves_least g.ruleSet _ hbody).trans ?_
    rcases hsource with rfl | hsource
    · exact le_rfl
    · exact g.derivesTargets_unitReach _ _ hsource
  · intro h
    refine least_le (fun rule hrule => ?_) n h
    have hhead := hg.heads_declared rule hrule
    -- what a unit rule derives comes from a rule of its target that the head has taken over
    by_cases hunit : isUnitBody rule.body = true
    · obtain ⟨m, hbody⟩ := isUnitBody_iff.mp hunit
      rw [hbody, ofForm_singleton]
      by_cases hself : m = rule.head
      · rw [hself]
        exact le_rfl
      · refine least_withoutUnitRules_le_of_mem_targets hg hhead
          (mem_targets_unitReach_of_rule ?_ hself)
        rwa [← hbody]
    · refine solves_least _ rule ((hrules rule).mpr ⟨hhead, mem_unitFreeBodies.mpr ⟨?_, _,
        Or.inl rfl, hrule⟩⟩)
      simpa using hunit

end Grammar

end GrammarAnalysis

import GrammarAnalysis.Proofs.Iteration.Settling
import GrammarAnalysis.Proofs.Lookahead.Follow

/-!
# The passes over the rules

The FIRST and FOLLOW sets are computed by passes over the rules, until a pass
reports that no set has grown.  Here it is shown that these loops end, and that
they end with the fixed points.

A pass reads the sets while it changes them, and the first pass for FIRST sets may
add empty sets for the rules, which it does not report.  What a pass does to the
sets of the symbols depends on these sets alone: if they have not changed after the
pass, no single rule has changed them, and every rule has found the same
set that it finds in the next pass.
-/

namespace GrammarAnalysis

namespace FirstSets

variable {g : Grammar} {first : FirstSets}

/-! ## The report of a pass -/

/-- The number of terminals and markers in all sets. -/
def size (first : FirstSets) : Nat :=
  first.symbols.total TerminalSet.weight + first.rules.total TerminalSet.weight

theorem fst_update (first : FirstSets) (id : RuleId) (rule : Rule) :
    (first.update id rule).1 = first.absorb id rule := by
  simp only [update, absorb, OrderedMap.updateEntry, TerminalSet.fst_update]

theorem tellsGrowth_update (first : FirstSets) (id : RuleId) (rule : Rule) :
    TellsGrowth size first (first.update id rule) := by
  have hentry := fun set => TerminalSet.tellsGrowth_update set (first.ofSentence rule.body)
  have hrules := first.rules.tellsGrowth_updateEntry (by decide) hentry id
  have hsymbols := first.symbols.tellsGrowth_updateEntry (by decide) hentry (.nonterminal rule.head)
  have hle := hrules.le
  have hle' := hsymbols.le
  constructor
  · simp only [size, update]
    omega
  · simp only [size, update, Bool.or_eq_true, hrules.iff, hsymbols.iff]
    omega

theorem fst_pass (g : Grammar) (first : FirstSets) : (pass g first).1 = step g first :=
  fst_applyReporting (fun first entry _ => fst_update first entry.1 entry.2) first

/-- A pass for FIRST sets reports whether some set has grown. -/
theorem tellsGrowth_pass (g : Grammar) (first : FirstSets) :
    TellsGrowth size first (pass g first) :=
  tellsGrowth_applyReporting (fun first entry _ => tellsGrowth_update first entry.1 entry.2) first

/-- A pass changes nothing or makes the sets heavier. -/
theorem step_eq_self_or_weight_lt (g : Grammar) (first : FirstSets) :
    step g first = first ∨ first.weight < (step g first).weight :=
  foldl_eq_self_or_lt (fun first entry _ => absorb_eq_self_or_weight_lt first entry.1 entry.2) _

/-! ## The sets of the symbols -/

/-- What is found of a sentence depends on the sets of the symbols alone. -/
theorem ofSentence_congr {other : FirstSets} (h : first.symbols = other.symbols)
    (α : List Symbol) : first.ofSentence α = other.ofSentence α := by
  induction α with
  | nil => rfl
  | cons s rest ih => rw [ofSentence, ofSentence, h, ih]

/-- What absorbing a rule does to the sets of the symbols. -/
def absorbInto (symbols : OrderedMap Symbol TerminalSet) (rule : Rule) :
    OrderedMap Symbol TerminalSet :=
  symbols.upsert (.nonterminal rule.head) fun set =>
    set.getD ∅ ∪ (⟨symbols, ∅⟩ : FirstSets).ofSentence rule.body

theorem symbols_absorb (first : FirstSets) (id : RuleId) (rule : Rule) :
    (first.absorb id rule).symbols = absorbInto first.symbols rule := by
  have hfound : first.ofSentence rule.body =
      (⟨first.symbols, ∅⟩ : FirstSets).ofSentence rule.body := by
    apply ofSentence_congr
    rfl
  rw [absorbInto, absorb, hfound]

theorem absorbInto_eq_self_or_weight_lt (symbols : OrderedMap Symbol TerminalSet) (rule : Rule) :
    absorbInto symbols rule = symbols ∨
      symbols.weight TerminalSet.weight < (absorbInto symbols rule).weight TerminalSet.weight :=
  symbols.upsert_eq_self_or_weight_lt _ fun v => v.union_eq_self_or_weight_lt _

/-- A pass that leaves the sets of the symbols alone does so rule by rule. -/
theorem symbols_absorb_of_step (h : (step g first).symbols = first.symbols) {id : RuleId}
    {rule : Rule} (hrule : (id, rule) ∈ g.rules.entries) {other : FirstSets}
    (hother : other.symbols = first.symbols) : (other.absorb id rule).symbols = first.symbols := by
  have hpass : g.rules.entries.foldl (fun symbols entry => absorbInto symbols entry.2)
      first.symbols = (step g first).symbols :=
    List.foldl_hom FirstSets.symbols fun first entry => (symbols_absorb first entry.1 entry.2).symm
  rw [h] at hpass
  rw [symbols_absorb, hother]
  exact idle_of_foldl_eq_self
    (fun symbols entry _ => absorbInto_eq_self_or_weight_lt symbols entry.2) hpass _ hrule

/-- If a pass leaves the sets of the symbols alone, the next pass changes nothing. -/
theorem step_step_of_symbols_eq (h : (step g first).symbols = first.symbols) :
    step g (step g first) = step g first := by
  have hkept : ∀ other : FirstSets, ∀ entry ∈ g.rules.entries, other.symbols = first.symbols →
      (other.absorb entry.1 entry.2).symbols = first.symbols :=
    fun other entry hentry hother => symbols_absorb_of_step h hentry hother
  refine foldl_eq_self fun entry hentry => ?_
  have hfound := ofSentence_congr h entry.2.body
  -- In the pass before, the set of the rule has taken in what the rule finds now.
  have hrules : ∃ set, (step g first).rules.get? entry.1 = some set ∧
      set ∪ first.ofSentence entry.2.body = set := by
    refine foldl_establishes (P := fun other => ∃ set, other.rules.get? entry.1 = some set ∧
      set ∪ first.ofSentence entry.2.body = set) hentry hkept (fun other hother => ?_)
      (fun other rule _ _ hset => ?_) rfl
    · rw [absorb, OrderedMap.get?_upsert, if_pos rfl, ofSentence_congr hother]
      exact ⟨_, rfl, TerminalSet.union_union_self _ _⟩
    · obtain ⟨set, hget, hset⟩ := hset
      by_cases hid : entry.1 = rule.1
      · rw [absorb, OrderedMap.get?_upsert, if_pos hid, ← hid, hget]
        exact ⟨_, rfl, TerminalSet.union_eq_self_of_union hset _⟩
      · rw [absorb, OrderedMap.get?_upsert, if_neg hid]
        exact ⟨set, hget, hset⟩
  obtain ⟨set, hget, hset⟩ := hrules
  have hsymbols : ((step g first).absorb entry.1 entry.2).symbols = (step g first).symbols := by
    rw [hkept _ entry hentry h, h]
  have hentries : ((step g first).absorb entry.1 entry.2).rules = (step g first).rules := by
    apply OrderedMap.upsert_eq_self hget
    rw [hfound]
    exact hset
  exact congr (congrArg FirstSets.mk hsymbols) hentries

/-! ## The loop -/

/-- Absorbing a rule takes nothing away from the sets. -/
theorem total_absorb_le (first : FirstSets) (id : RuleId) (rule : Rule) :
    first.symbols.total TerminalSet.weight ≤
        (first.absorb id rule).symbols.total TerminalSet.weight ∧
      first.rules.total TerminalSet.weight ≤
        (first.absorb id rule).rules.total TerminalSet.weight := by
  have hentry := fun set => TerminalSet.tellsGrowth_update set (first.ofSentence rule.body)
  rw [← fst_update]
  exact ⟨(first.symbols.tellsGrowth_updateEntry (by decide) hentry _).le,
    (first.rules.tellsGrowth_updateEntry (by decide) hentry _).le⟩

theorem total_step_le (g : Grammar) (first : FirstSets) :
    first.symbols.total TerminalSet.weight ≤ (step g first).symbols.total TerminalSet.weight ∧
      first.rules.total TerminalSet.weight ≤ (step g first).rules.total TerminalSet.weight := by
  refine foldl_keeps (P := fun other : FirstSets =>
    first.symbols.total TerminalSet.weight ≤ other.symbols.total TerminalSet.weight ∧
      first.rules.total TerminalSet.weight ≤ other.rules.total TerminalSet.weight)
    (fun other entry _ hother => ?_) ⟨Nat.le_refl _, Nat.le_refl _⟩
  obtain ⟨hsymbols, hrules⟩ := other.total_absorb_le entry.1 entry.2
  exact ⟨Nat.le_trans hother.1 hsymbols, Nat.le_trans hother.2 hrules⟩

/-- A pass in which no set has grown leaves the sets of the symbols alone. -/
theorem Sound.symbols_step (hg : g.IsClosed) (h : Sound g first)
    (hsize : (FirstSets.step g first).size = first.size) :
    (FirstSets.step g first).symbols = first.symbols := by
  have hparts := total_step_le g first
  have hkeys : (FirstSets.step g first).symbols.keys = first.symbols.keys :=
    (h.step hg).keys_eq.trans h.keys_eq.symm
  have hpass : g.rules.entries.foldl (fun symbols entry => absorbInto symbols entry.2)
      first.symbols = (FirstSets.step g first).symbols :=
    List.foldl_hom FirstSets.symbols fun first entry => (symbols_absorb first entry.1 entry.2).symm
  have hgrows : (FirstSets.step g first).symbols = first.symbols ∨
      first.symbols.weight TerminalSet.weight <
        (FirstSets.step g first).symbols.weight TerminalSet.weight := by
    rw [← hpass]
    exact foldl_eq_self_or_lt
      (fun symbols entry _ => absorbInto_eq_self_or_weight_lt symbols entry.2) _
  refine hgrows.resolve_right ?_
  rw [OrderedMap.weight_eq_total_add, OrderedMap.weight_eq_total_add, hkeys]
  simp only [size] at hsize
  omega

/-- The loop for FIRST sets ends, and it ends with the sets of the grammar. -/
theorem settles_ofGrammar (hg : g.IsClosed) : Settles (pass g) (initial g) (ofGrammar g) :=
  settles_stabilize (Sound g) size weight (fun first _ => fst_pass g first)
    (fun first _ => tellsGrowth_pass g first) (fun _ h => h.step hg)
    (fun first _ => step_eq_self_or_weight_lt g first)
    (fun _ h hsize => step_step_of_symbols_eq (h.symbols_step hg hsize))
    (fun _ h => h.weight_le hg) (sound_initial g) weight_lt_passBound

theorem step_ofGrammar (hg : g.IsClosed) : step g (ofGrammar g) = ofGrammar g :=
  foldl_eq_self fun _ hentry => absorb_ofGrammar hg (OrderedMap.get?_eq_some_iff.mpr hentry)

/-- One more pass changes nothing, and says so. -/
theorem pass_ofGrammar (hg : g.IsClosed) : pass g (ofGrammar g) = (ofGrammar g, false) :=
  (tellsGrowth_pass g _).eq_idle ((fst_pass g _).trans (step_ofGrammar hg))

end FirstSets

namespace FollowSets

variable {g : Grammar} {follow : FollowSets}

/-- The number of terminals in all sets. -/
def size (follow : FollowSets) : Nat := follow.sets.total NatSet.size

theorem fst_update (first : FirstSets) (head : NonterminalId) (body : List Symbol) :
    (follow.update first head body).1 = follow.absorb first head body := by
  induction body generalizing follow with
  | nil => rfl
  | cons s rest ih =>
      cases s with
      | terminal t => exact ih
      | nonterminal n =>
          simp only [update, absorb, OrderedMap.updateEntry, NatSet.fst_update]
          exact ih

theorem tellsGrowth_update (first : FirstSets) (head : NonterminalId) (body : List Symbol) :
    TellsGrowth size follow (follow.update first head body) := by
  induction body generalizing follow with
  | nil => exact .idle size follow
  | cons s rest ih =>
      cases s with
      | terminal t => exact ih
      | nonterminal n =>
          have hentry := follow.sets.tellsGrowth_updateEntry (by decide)
            (fun set => NatSet.tellsGrowth_update set (foundAt first head follow rest)) n
          exact (hentry.congr rfl rfl rfl : TellsGrowth size follow (FollowSets.mk _, _)).trans ih

theorem fst_pass (g : Grammar) (first : FirstSets) (follow : FollowSets) :
    (pass g first follow).1 = step g first follow :=
  fst_applyReporting (fun _ rule _ => fst_update first rule.head rule.body) follow

/-- A pass for FOLLOW sets reports whether some set has grown. -/
theorem tellsGrowth_pass (g : Grammar) (first : FirstSets) (follow : FollowSets) :
    TellsGrowth size follow (pass g first follow) :=
  tellsGrowth_applyReporting (fun _ rule _ => tellsGrowth_update first rule.head rule.body) follow

/-- A pass changes nothing or makes the sets heavier. -/
theorem step_eq_self_or_weight_lt (g : Grammar) (first : FirstSets) (follow : FollowSets) :
    step g first follow = follow ∨ follow.weight < (step g first follow).weight :=
  foldl_eq_self_or_lt (fun follow rule _ => absorb_eq_self_or_weight_lt first follow rule) _

/-- A pass in which no set has grown changes nothing, as there are sets for all nonterminals. -/
theorem Sound.step_eq_self (hg : g.IsClosed) (h : Sound g follow)
    (hsize : (FollowSets.step g (.ofGrammar g) follow).size = follow.size) :
    FollowSets.step g (.ofGrammar g) follow = follow := by
  have hkeys : (FollowSets.step g (.ofGrammar g) follow).sets.keys = follow.sets.keys :=
    (h.step hg).keys_eq.trans h.keys_eq.symm
  refine (step_eq_self_or_weight_lt g _ follow).resolve_right ?_
  simp only [size] at hsize
  rw [weight, weight, OrderedMap.weight_eq_total_add, OrderedMap.weight_eq_total_add, hkeys, hsize]
  exact Nat.lt_irrefl _

/-- The loop for FOLLOW sets ends, and it ends with the sets of the grammar. -/
theorem settles_ofGrammar (hg : g.IsClosed) :
    Settles (pass g (.ofGrammar g)) (initial g) (ofGrammar g (.ofGrammar g)) :=
  settles_stabilize_of_eq_self (Sound g) size weight (fun follow _ => fst_pass g _ follow)
    (fun follow _ => tellsGrowth_pass g _ follow) (fun _ h => h.step hg)
    (fun follow _ => step_eq_self_or_weight_lt g _ follow) (fun _ h => h.step_eq_self hg)
    (fun _ h => h.weight_le hg) (sound_initial hg) weight_lt_passBound

theorem step_ofGrammar (hg : g.IsClosed) :
    step g (.ofGrammar g) (ofGrammar g (.ofGrammar g)) = ofGrammar g (.ofGrammar g) := by
  refine foldl_eq_self fun rule hrule => ?_
  obtain ⟨id, hid⟩ := OrderedMap.mem_values_iff.mp hrule
  rw [absorb_eq_foldl]
  refine foldl_eq_self fun occurrence hocc => ?_
  obtain ⟨before, hsplit⟩ := mem_occurrences.mp hocc
  exact absorbAt_ofGrammar hg hid hsplit

/-- One more pass changes nothing, and says so. -/
theorem pass_ofGrammar (hg : g.IsClosed) :
    pass g (.ofGrammar g) (ofGrammar g (.ofGrammar g)) =
      (ofGrammar g (.ofGrammar g), false) :=
  (tellsGrowth_pass g _ _).eq_idle ((fst_pass g _ _).trans (step_ofGrammar hg))

end FollowSets

end GrammarAnalysis

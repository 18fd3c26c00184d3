import GrammarAnalysis.Proofs.Normal.CommonPrefix

/-!
# Left factoring leaves no common prefix

The queue of waiting nonterminals gets lighter with each entry that is worked off,
so the loop ends.  Each waiting nonterminal has no rules yet; working it off gives it
one rule for each group, and the groups have different first symbols.  The
nonterminals that join the queue are fresh.  At the end no two rules of a
nonterminal start with the same symbol, and no two are empty.
-/

namespace GrammarAnalysis

/-! ## Rules that differ in their first symbols -/

/-- Whether no two rules of a nonterminal start with the same symbol, and no two are empty. -/
def IsFactored (rules : Set Rule) : Prop :=
  ∀ rule ∈ rules, ∀ other ∈ rules, rule.head = other.head →
    rule.body.head? = other.body.head? → rule = other

theorem IsFactored.union {rules rules' : Set Rule} (h : IsFactored rules)
    (h' : IsFactored rules') (hne : ∀ rule ∈ rules, ∀ other ∈ rules', rule.head = other.head →
      rule.body.head? ≠ other.body.head?) : IsFactored (rules ∪ rules') := by
  rintro rule (hrule | hrule) other (hother | hother) hhead hfirst
  · exact h rule hrule other hother hhead hfirst
  · exact absurd hfirst (hne rule hrule other hother hhead)
  · exact absurd hfirst.symm (hne other hother rule hrule hhead.symm)
  · exact h' rule hrule other hother hhead hfirst

namespace Definition

variable {d d' d'' : Definition} {head : NonterminalId} {tails tails' : List PendingBodies}
  {firsts firsts' : List (Option Symbol)}

/-- Declared heads and fresh ones are different. -/
theorem nodup_heads_append (h : (tails.map PendingBodies.head).Nodup)
    (h' : (tails'.map PendingBodies.head).Nodup)
    (hdeclared : ∀ pending ∈ tails, pending.head ∈ d.nonterminals.keys)
    (hfresh : ∀ pending ∈ tails', pending.head ∉ d.nonterminals.keys) :
    ((tails ++ tails').map PendingBodies.head).Nodup := by
  rw [List.map_append]
  refine List.nodup_append.mpr ⟨h, h', fun n hn m hm hnm => ?_⟩
  obtain ⟨pending, hpending, rfl⟩ := List.mem_map.mp hn
  obtain ⟨later, hlater, rfl⟩ := List.mem_map.mp hm
  exact hfresh later hlater (hnm ▸ hdeclared pending hpending)

/-! ## Groups -/

/-- Adding rules of one head, with bodies that differ in their first symbols, and declaring
the nonterminals of the entries that now wait. -/
structure Spreads (d d' : Definition) (head : NonterminalId) (firsts : List (Option Symbol))
    (tails : List PendingBodies) : Prop where
  declares : d.Extends d'
  exists_rules : ∃ rules, d'.ruleSet = d.ruleSet ∪ rules ∧ IsFactored rules ∧
    ∀ rule ∈ rules, rule.head = head ∧ rule.body.head? ∈ firsts
  tails_declared : ∀ pending ∈ tails, pending.head ∈ d'.nonterminals.keys
  tails_fresh : ∀ pending ∈ tails, pending.head ∉ d.nonterminals.keys
  tails_nodup : (tails.map PendingBodies.head).Nodup

theorem Spreads.refl (d : Definition) (head : NonterminalId) : d.Spreads d head [] [] where
  declares := Extends.refl d
  exists_rules := ⟨∅, (Set.union_empty _).symm, by simp [IsFactored], by simp⟩
  tails_declared := by simp
  tails_fresh := by simp
  tails_nodup := List.nodup_nil

theorem Spreads.trans (h : d.Spreads d' head firsts tails)
    (h' : d'.Spreads d'' head firsts' tails') (hfirsts : ∀ first ∈ firsts, first ∉ firsts') :
    d.Spreads d'' head (firsts ++ firsts') (tails ++ tails') where
  declares := h.declares.trans h'.declares
  exists_rules := by
    obtain ⟨rules, heq, hfactored, hrules⟩ := h.exists_rules
    obtain ⟨rules', heq', hfactored', hrules'⟩ := h'.exists_rules
    refine ⟨rules ∪ rules', by rw [heq', heq, Set.union_assoc], hfactored.union hfactored' ?_, ?_⟩
    · intro rule hrule other hother _ hsame
      exact hfirsts _ (hrules rule hrule).2 (hsame ▸ (hrules' other hother).2)
    · rintro rule (hrule | hrule)
      · exact (hrules rule hrule).imp_right (List.mem_append_left _)
      · exact (hrules' rule hrule).imp_right (List.mem_append_right _)
  tails_declared := List.forall_mem_append.mpr
    ⟨fun pending hp => h'.declares.mem_keys (h.tails_declared pending hp), h'.tails_declared⟩
  tails_fresh := List.forall_mem_append.mpr ⟨h.tails_fresh, fun pending hp hmem =>
    h'.tails_fresh pending hp (h.declares.mem_keys hmem)⟩
  tails_nodup := nodup_heads_append h.tails_nodup h'.tails_nodup h.tails_declared h'.tails_fresh

/-- A group gives its head one rule. -/
theorem spreads_addGroup (hd : d.IsPlain) {group : Option Symbol × List (List Symbol)}
    (hgroup : IsGroup group) (hadmits : ∀ rule ∈ rulesFor head group.2, d.Admits rule) :
    d.Spreads (d.addGroup head group).1 head [group.1] (d.addGroup head group).2 := by
  have hkept : (∀ body ∈ group.2, ∀ other ∈ group.2, body = other) →
      d.Spreads (d.ensureRules head group.2) head [group.1] [] := by
    intro hsame
    have hadded := continues_ensureRules hd fun body hbody => hadmits ⟨head, body⟩ ⟨rfl, hbody⟩
    refine ⟨hadded.declares, ⟨_, hadded.ruleSet_eq, ?_, ?_⟩, by simp, by simp, List.nodup_nil⟩
    · rintro ⟨_, body⟩ ⟨rfl, hbody⟩ ⟨_, other⟩ ⟨rfl, hother⟩ - -
      rw [show body = other from hsame body hbody other hother]
    · exact fun rule hrule => ⟨hrule.1, List.mem_singleton.mpr (hgroup _ hrule.2)⟩
  match group with
  | (none, bodies) =>
      refine hkept fun body hbody other hother => ?_
      rw [List.head?_eq_none_iff.mp (hgroup body hbody),
        List.head?_eq_none_iff.mp (hgroup other hother)]
  | (some first, []) => exact hkept (by simp)
  | (some first, [body]) => exact hkept (by simp)
  | (some first, body :: other :: more) =>
      obtain ⟨rest, rfl⟩ := List.head?_eq_some_iff.mp (hgroup body List.mem_cons_self)
      let base := (d.nonterminals.get? head).getD ""
      obtain ⟨hadded, htail⟩ := continues_share hd (hadmits _ ⟨rfl, List.mem_cons_self⟩) base
      obtain ⟨-, hnew, -⟩ := d.continues_freshNonterminal hd base
      refine ⟨hadded.declares, ⟨_, hadded.ruleSet_eq, ?_, ?_⟩, ?_, ?_, List.nodup_singleton _⟩
      · rintro _ rfl _ rfl - -
        rfl
      · rintro _ rfl
        simp
      · exact List.forall_mem_singleton.mpr (declaresSymbol_nonterminal.mp htail)
      · exact List.forall_mem_singleton.mpr hnew

theorem spreads_addGroups (hd : d.IsPlain) {groups : List (Option Symbol × List (List Symbol))}
    (hgroups : ∀ group ∈ groups, IsGroup group) (hnodup : (groups.map Prod.fst).Nodup)
    (hadmits : ∀ rule ∈ groupRules head groups, d.Admits rule) :
    d.Spreads (d.addGroups head groups).1 head (groups.map Prod.fst)
      (d.addGroups head groups).2 := by
  induction groups generalizing d with
  | nil => exact Spreads.refl d head
  | cons group groups ih =>
      obtain ⟨hgroup, hgroups⟩ := List.forall_mem_cons.mp hgroups
      obtain ⟨hnew, hnodup⟩ := List.nodup_cons.mp hnodup
      rw [groupRules_cons] at hadmits
      have hfirst : ∀ rule ∈ rulesFor head group.2, d.Admits rule := fun rule hrule =>
        hadmits rule (Or.inl hrule)
      have hworks := (worksOff_addGroup hd hgroup hfirst).1
      have hrest := ih hworks.isPlain hgroups hnodup fun rule hrule =>
        (hadmits rule (Or.inr hrule)).extend hworks.declares
      refine (spreads_addGroup hd hgroup hfirst).trans hrest ?_
      rw [List.forall_mem_singleton]
      exact hnew

/-! ## The queue -/

/-- Working off the queue until it is empty, however long that takes, ends with the second
definition. -/
inductive Factors : List PendingBodies → Definition → Definition → Prop
  | done (d : Definition) : Factors [] d d
  | next {pending : PendingBodies} {queue : List PendingBodies} {d last : Definition}
      (rest : Factors (queue ++ (d.addGroups pending.head pending.groups).2)
        (d.addGroups pending.head pending.groups).1 last) : Factors (pending :: queue) d last

/-- What holds whenever an entry is taken from the queue: the waiting nonterminals are
declared, each waits once, and none of them has rules yet; the rules that are there are
factored. -/
structure Awaits (d : Definition) (queue : List PendingBodies) : Prop where
  isPlain : d.IsPlain
  admits : ∀ rule ∈ waitingRules queue, d.Admits rule
  declared : ∀ pending ∈ queue, pending.head ∈ d.nonterminals.keys
  heads_nodup : (queue.map PendingBodies.head).Nodup
  heads_waiting : ∀ rule ∈ d.ruleSet, ∀ pending ∈ queue, rule.head ≠ pending.head
  isFactored : IsFactored d.ruleSet

/-- Working off an entry makes the queue lighter and keeps what holds of it. -/
theorem Awaits.step {pending : PendingBodies} {queue : List PendingBodies}
    (h : d.Awaits (pending :: queue)) :
    (d.addGroups pending.head pending.groups).1.Awaits
        (queue ++ (d.addGroups pending.head pending.groups).2) ∧
      totalBy PendingBodies.weight (queue ++ (d.addGroups pending.head pending.groups).2) <
        totalBy PendingBodies.weight (pending :: queue) := by
  obtain ⟨hworks, hnext, hlighter⟩ := worksOff_pending h.isPlain h.admits
  have hadmits : ∀ rule ∈ groupRules pending.head pending.groups, d.Admits rule := by
    rw [groupRules_groups]
    exact fun rule hrule => h.admits rule (waitingRules_cons pending queue ▸ Or.inl hrule)
  have hspreads := spreads_addGroups h.isPlain (fun _ => isGroup_of_mem_groups)
    (OrderedMap.nodup _) hadmits
  obtain ⟨rules, hrules, hfactored, hheads⟩ := hspreads.exists_rules
  obtain ⟨hpending, hdeclared⟩ := List.forall_mem_cons.mp h.declared
  obtain ⟨hnew, hnodup⟩ := List.nodup_cons.mp h.heads_nodup
  refine ⟨⟨hworks.isPlain, hnext, ?_, ?_, ?_, ?_⟩, hlighter⟩
  · exact List.forall_mem_append.mpr
      ⟨fun later hl => hworks.declares.mem_keys (hdeclared later hl), hspreads.tails_declared⟩
  · exact nodup_heads_append hnodup hspreads.tails_nodup hdeclared hspreads.tails_fresh
  · rw [hrules]
    rintro rule hrule
    -- Neither the old rules nor the new ones have a head that waits, and both heads are declared.
    have hrest : (∀ later ∈ queue, rule.head ≠ later.head) ∧ rule.head ∈ d.nonterminals.keys := by
      rcases hrule with hrule | hrule
      · exact ⟨(List.forall_mem_cons.mp (h.heads_waiting rule hrule)).2,
          declaresSymbol_nonterminal.mp (h.isPlain.admits hrule).head⟩
      · rw [(hheads rule hrule).1]
        exact ⟨fun later hl heq => hnew (heq ▸ List.mem_map_of_mem hl), hpending⟩
    exact List.forall_mem_append.mpr ⟨hrest.1, fun later hl heq =>
      hspreads.tails_fresh later hl (heq ▸ hrest.2)⟩
  · rw [hrules]
    refine h.isFactored.union hfactored fun rule hrule other hother hhead => ?_
    rw [(hheads other hother).1] at hhead
    exact absurd hhead (h.heads_waiting rule hrule pending List.mem_cons_self)

/-- With a bound that is not below its weight, the queue is worked off. -/
theorem Awaits.factors {bound : Nat} {queue : List PendingBodies} (h : d.Awaits queue)
    (hbound : totalBy PendingBodies.weight queue ≤ bound) :
    Factors queue d (factor bound queue d) := by
  induction bound generalizing queue d with
  | zero =>
      cases queue with
      | nil => exact .done d
      | cons pending queue =>
          simp only [totalBy_cons, PendingBodies.weight] at hbound
          omega
  | succ bound ih =>
      cases queue with
      | nil => exact .done d
      | cons pending queue =>
          obtain ⟨hstep, hlighter⟩ := h.step
          exact .next (ih hstep (by omega))

/-- At the end of the queue no two rules of a nonterminal have a common prefix. -/
theorem Factors.isFactored {last : Definition} {queue : List PendingBodies}
    (h : Factors queue d last) (hd : d.Awaits queue) : IsFactored last.ruleSet := by
  induction h with
  | done d => exact hd.isFactored
  | next _ ih => exact ih hd.step.1

end Definition

/-! ## The whole pass -/

namespace Grammar

variable {g : Grammar}

/-- The queue with which left factoring starts. -/
def pendingBodies (g : Grammar) : List PendingBodies :=
  g.nonterminals.keys.map fun n => ⟨n, g.bodiesOf n⟩

theorem awaits_pendingBodies (hg : g.IsPlain) : g.toDefinition.Awaits g.pendingBodies where
  isPlain := hg.toDefinition
  admits := by
    rw [pendingBodies, waitingRules_bodiesOf hg]
    exact hg.admits
  declared := List.forall_mem_map.mpr fun _ hn => hn
  heads_nodup := by
    rw [pendingBodies, List.map_map]
    exact (List.map_id g.nonterminals.keys).symm ▸ g.nonterminals.nodup
  heads_waiting := by
    rw [ruleSet_toDefinition]
    exact fun rule hrule => absurd hrule (Set.notMem_empty rule)
  isFactored := by
    rw [ruleSet_toDefinition]
    exact fun rule hrule => absurd hrule (Set.notMem_empty rule)

/-- Left factoring comes to an end, with no common prefix left. -/
theorem exists_factors_withoutCommonPrefix (hg : g.IsPlain) :
    (∃ last, Definition.Factors g.pendingBodies g.toDefinition last ∧
        g.withoutCommonPrefix = last.finish g.start) ∧
      IsFactored g.withoutCommonPrefix.ruleSet := by
  have hqueue := awaits_pendingBodies hg
  have hends := hqueue.factors (Nat.le_refl _)
  have hstart := (generated_withoutCommonPrefix hg).2.1
  refine ⟨⟨_, hends, ?_⟩, hends.isFactored hqueue⟩
  rw [← hstart]
  rfl

end Grammar

end GrammarAnalysis

import GrammarAnalysis.Normal.CommonPrefix
import GrammarAnalysis.Proofs.Grammar.Rebuild

/-!
# Left factoring keeps the languages

A fresh nonterminal derives what follows the common first symbol of a group of
bodies.  Its own bodies wait in the queue; at any time the rules that are done
and those that wait give every old nonterminal its language.  Each factored
nonterminal makes the queue lighter, so nothing is left at the end.
-/

namespace GrammarAnalysis

open Computability Reading

/-! ## One group -/

/-- The rules that share a first symbol: the fresh nonterminal derives the remainders. -/
def sharingRules (head tail : NonterminalId) (first : Symbol) (remainders : List (List Symbol)) :
    Set Rule :=
  {⟨head, [first, .nonterminal tail]⟩} ∪ rulesFor tail remainders

section

variable {rules : Set Rule} {head tail m : NonterminalId} {first : Symbol}
  {remainders : List (List Symbol)} {L : Reading}

theorem solves_sharingRules : L.Solves (sharingRules head tail first remainders) ↔
    L.ofForm [first] * L tail ≤ L head ∧ ∀ x ∈ remainders, L.ofForm x ≤ L tail := by
  rw [sharingRules, solves_union, solves_rulesFor]
  refine and_congr_left fun _ => ?_
  simp only [Solves, Set.mem_singleton_iff, forall_eq, ofForm_cons, ofForm_nil, mul_one,
    ofSymbol_nonterminal]

/-- With a shared first symbol no other words are derived. -/
theorem least_sharingRules_le (hrules : ∀ rule ∈ rules, rule.Avoids tail)
    (hremainders : ∀ x ∈ remainders, .nonterminal tail ∉ first :: x)
    (hfirst : first ≠ .nonterminal tail) (hne : head ≠ tail) (hm : m ≠ tail) :
    least (rules ∪ sharingRules head tail first remainders) m ≤
      least (rules ∪ rulesFor head (remainders.map (first :: ·))) m := by
  let L := least (rules ∪ rulesFor head (remainders.map (first :: ·)))
  obtain ⟨hsolves, hbody⟩ := solves_union.mp
    (solves_least (rules ∪ rulesFor head (remainders.map (first :: ·))))
  rw [solves_rulesFor, List.forall_mem_map] at hbody
  have hshared : Solves (Function.update L tail (L.ofAny remainders))
      (rules ∪ sharingRules head tail first remainders) := by
    refine solves_union.mpr ⟨hsolves.update hrules _, solves_sharingRules.mpr ⟨?_, ?_⟩⟩
    · rw [ofForm_update_of_not_mem fun h => hfirst (List.mem_singleton.mp h).symm,
        Function.update_self, Function.update_of_ne hne, ofForm_singleton]
      exact mul_ofAny_le hbody
    · intro x hx
      rw [ofForm_update_of_not_mem fun h => hremainders x hx (List.mem_cons_of_mem _ h),
        Function.update_self]
      exact ofForm_le_ofAny hx
  calc
    _ ≤ Function.update L tail (L.ofAny remainders) m := least_le hshared m
    _ = L m := Function.update_of_ne hm _ _

/-- With a shared first symbol all words are still derived. -/
theorem least_le_sharingRules :
    least (rules ∪ rulesFor head (remainders.map (first :: ·))) m ≤
      least (rules ∪ sharingRules head tail first remainders) m := by
  let L := least (rules ∪ sharingRules head tail first remainders)
  obtain ⟨hsolves, hnew⟩ := solves_union.mp
    (solves_least (rules ∪ sharingRules head tail first remainders))
  obtain ⟨hshared, htail⟩ := solves_sharingRules.mp hnew
  refine least_le (solves_union.mpr ⟨hsolves, solves_rulesFor.mpr ?_⟩) m
  rw [List.forall_mem_map]
  intro x hx
  calc
    L.ofForm (first :: x) ≤ L.ofSymbol first * L tail := mul_le_mul_right (htail x hx) _
    _ = L.ofForm [first] * L tail := by rw [ofForm_singleton]
    _ ≤ L head := hshared

end

/-! ## Waiting rules -/

/-- The rules that still have to be added for the entries of a queue. -/
def waitingRules (queue : List PendingBodies) : Set Rule :=
  {rule | ∃ pending ∈ queue, rule ∈ rulesFor pending.head pending.bodies}

@[simp] theorem waitingRules_nil : waitingRules [] = ∅ := by
  ext rule
  simp [waitingRules]

theorem waitingRules_cons (pending : PendingBodies) (queue : List PendingBodies) :
    waitingRules (pending :: queue) =
      rulesFor pending.head pending.bodies ∪ waitingRules queue := by
  ext rule
  simp [waitingRules]

theorem waitingRules_append (queue more : List PendingBodies) :
    waitingRules (queue ++ more) = waitingRules queue ∪ waitingRules more := by
  ext rule
  simp [waitingRules, or_and_right, exists_or]

namespace Definition

variable {d d' d'' : Definition} {rules rules' : Set Rule} {tails tails' : List PendingBodies}
  {head : NonterminalId}

/-- Working off some rules: the definition stays plain, the rules that now wait are
admitted, and the languages stay. -/
structure WorksOff (d d' : Definition) (rules : Set Rule) (tails : List PendingBodies) : Prop where
  isPlain : d'.IsPlain
  declares : d.Extends d'
  start_eq : d'.start = d.start
  admits : ∀ rule ∈ waitingRules tails, d'.Admits rule
  least_eq : ∀ others : Set Rule, (∀ rule ∈ others, d.Admits rule) → ∀ m ∈ d.nonterminals.keys,
    least (d'.ruleSet ∪ (waitingRules tails ∪ others)) m =
      least (d.ruleSet ∪ (rules ∪ others)) m

theorem Continues.worksOff (h : d.Continues d' rules) : d.WorksOff d' rules [] where
  isPlain := h.isPlain
  declares := h.declares
  start_eq := h.start_eq
  admits rule hrule := by
    rw [waitingRules_nil] at hrule
    exact absurd hrule (Set.notMem_empty rule)
  least_eq others _ m _ := by
    rw [h.ruleSet_eq, waitingRules_nil, Set.empty_union, Set.union_assoc]

theorem WorksOff.trans (h : d.WorksOff d' rules tails) (h' : d'.WorksOff d'' rules' tails')
    (hrules' : ∀ rule ∈ rules', d.Admits rule) :
    d.WorksOff d'' (rules ∪ rules') (tails ++ tails') where
  isPlain := h'.isPlain
  declares := h.declares.trans h'.declares
  start_eq := h'.start_eq.trans h.start_eq
  admits := by
    rw [waitingRules_append]
    rintro rule (hrule | hrule)
    · exact (h.admits rule hrule).extend h'.declares
    · exact h'.admits rule hrule
  least_eq others hothers m hm := by
    have hlater : ∀ rule ∈ waitingRules tails ∪ others, d'.Admits rule := by
      rintro rule (hrule | hrule)
      · exact h.admits rule hrule
      · exact (hothers rule hrule).extend h.declares
    have hearlier : ∀ rule ∈ rules' ∪ others, d.Admits rule := by
      rintro rule (hrule | hrule)
      · exact hrules' rule hrule
      · exact hothers rule hrule
    calc
      _ = least (d''.ruleSet ∪ (waitingRules tails' ∪ (waitingRules tails ∪ others))) m := by
        rw [waitingRules_append, Set.union_comm (waitingRules tails), Set.union_assoc]
      _ = least (d'.ruleSet ∪ (rules' ∪ (waitingRules tails ∪ others))) m :=
        h'.least_eq _ hlater m (h.declares.mem_keys hm)
      _ = least (d'.ruleSet ∪ (waitingRules tails ∪ (rules' ∪ others))) m := by
        rw [Set.union_left_comm rules']
      _ = least (d.ruleSet ∪ (rules ∪ (rules' ∪ others))) m := h.least_eq _ hearlier m hm
      _ = _ := by rw [Set.union_assoc rules]

/-! ## Groups -/

/-- Whether the group has bodies that start with its first symbol. -/
def IsGroup (group : Option Symbol × List (List Symbol)) : Prop :=
  ∀ body ∈ group.2, body.head? = group.1

theorem map_cons_tail {first : Symbol} {bodies : List (List Symbol)}
    (h : ∀ body ∈ bodies, body.head? = some first) :
    (bodies.map List.tail).map (first :: ·) = bodies := by
  rw [List.map_map]
  refine (List.map_congr_left fun body hbody => ?_).trans bodies.map_id
  exact List.cons_head?_tail (h body hbody)

theorem totalBy_length_tail {first : Symbol} {bodies : List (List Symbol)}
    (h : ∀ body ∈ bodies, body.head? = some first) :
    totalBy List.length (bodies.map List.tail) + bodies.length = totalBy List.length bodies := by
  induction bodies with
  | nil => rfl
  | cons body bodies ih =>
      obtain ⟨hbody, hbodies⟩ := List.forall_mem_cons.mp h
      obtain ⟨rest, rfl⟩ := List.head?_eq_some_iff.mp hbody
      have hrest := ih hbodies
      simp only [List.map_cons, totalBy_cons, List.tail_cons, List.length_cons]
      omega

/-- The definition with a fresh nonterminal behind the shared first symbol. -/
def share (d : Definition) (head : NonterminalId) (first : Symbol) (base : String) : Definition :=
  ((d.freshNonterminal base).2.ensureRule head
    [first, .nonterminal (d.freshNonterminal base).1]).2

theorem continues_share (hd : d.IsPlain) {first : Symbol} {x : List Symbol}
    (h : d.Admits ⟨head, first :: x⟩) (base : String) :
    d.Continues (d.share head first base)
        {⟨head, [first, .nonterminal (d.freshNonterminal base).1]⟩} ∧
      (d.share head first base).declaresSymbol (.nonterminal (d.freshNonterminal base).1) =
        true := by
  obtain ⟨hfresh, -, htail⟩ := d.continues_freshNonterminal hd base
  have hfirst : d.Admits ⟨head, [first]⟩ :=
    ⟨h.head, List.forall_mem_singleton.mpr (List.forall_mem_cons.mp h.body).1⟩
  have hadded := continues_ensureRule hfresh.isPlain ((hfirst.extend hfresh.declares).concat htail)
  have hall := hfresh.trans hadded
  rw [Set.empty_union] at hall
  exact ⟨hall, hadded.declares _ htail⟩

/-- The bodies of a group share their first symbol, and their remainders wait. -/
theorem worksOff_share (hd : d.IsPlain) {first : Symbol} {bodies : List (List Symbol)}
    (hbodies : ∀ body ∈ bodies, body.head? = some first) (hnonempty : bodies ≠ [])
    (hadmits : ∀ rule ∈ rulesFor head bodies, d.Admits rule) (base : String) :
    d.WorksOff (d.share head first base) (rulesFor head bodies)
      [⟨(d.freshNonterminal base).1, bodies.map List.tail⟩] := by
  have hsplit := map_cons_tail hbodies
  generalize bodies.map List.tail = remainders at hsplit ⊢
  subst hsplit
  have hbody : ∀ x ∈ remainders, d.Admits ⟨head, first :: x⟩ := fun x hx =>
    hadmits _ ⟨rfl, List.mem_map_of_mem hx⟩
  obtain ⟨sample, hsample⟩ := List.exists_mem_of_ne_nil remainders (by simpa using hnonempty)
  obtain ⟨hadded, htail⟩ := continues_share hd (hbody sample hsample) base
  obtain ⟨-, hnew, -⟩ := d.continues_freshNonterminal hd base
  generalize (d.freshNonterminal base).1 = tail at hadded htail hnew ⊢
  have hwaiting : waitingRules [⟨tail, remainders⟩] = rulesFor tail remainders := by
    rw [waitingRules_cons, waitingRules_nil, Set.union_empty]
  refine ⟨hadded.isPlain, hadded.declares, hadded.start_eq, ?_, fun others hothers m hm => ?_⟩
  · rw [hwaiting]
    rintro ⟨_, x⟩ ⟨rfl, hx⟩
    exact ⟨htail, (List.forall_mem_cons.mp ((hbody x hx).extend hadded.declares).body).2⟩
  · have havoids : ∀ x ∈ remainders, .nonterminal tail ∉ first :: x := fun x hx =>
      ((hbody x hx).avoids hnew).2
    have hold := hd.avoids_of_admits hothers hnew
    have hfirst : first ≠ .nonterminal tail := fun h =>
      havoids sample hsample (h ▸ List.mem_cons_self)
    have hne : ∀ {n}, n ∈ d.nonterminals.keys → n ≠ tail := fun hn h => hnew (h ▸ hn)
    have hhead := hne (declaresSymbol_nonterminal.mp (hbody sample hsample).head)
    calc
      _ = least ((d.ruleSet ∪ others) ∪ sharingRules head tail first remainders) m := by
        refine congrFun (congrArg least ?_) m
        rw [hadded.ruleSet_eq, hwaiting, sharingRules, Set.union_comm (rulesFor _ _),
          ← Set.union_assoc, Set.union_right_comm d.ruleSet, Set.union_assoc (d.ruleSet ∪ others)]
      _ = least ((d.ruleSet ∪ others) ∪ rulesFor head (remainders.map (first :: ·))) m :=
        le_antisymm (least_sharingRules_le hold havoids hfirst hhead (hne hm))
          least_le_sharingRules
      _ = _ := by
        refine congrFun (congrArg least ?_) m
        rw [Set.union_assoc, Set.union_comm others]

theorem worksOff_addGroup (hd : d.IsPlain) {group : Option Symbol × List (List Symbol)}
    (hgroup : IsGroup group) (hadmits : ∀ rule ∈ rulesFor head group.2, d.Admits rule) :
    d.WorksOff (d.addGroup head group).1 (rulesFor head group.2) (d.addGroup head group).2 ∧
      totalBy PendingBodies.weight (d.addGroup head group).2 ≤ totalBy List.length group.2 := by
  have hplain : d.WorksOff (d.ensureRules head group.2) (rulesFor head group.2) [] :=
    (continues_ensureRules hd fun body hbody => hadmits _ ⟨rfl, hbody⟩).worksOff
  match group with
  | (none, bodies) => exact ⟨hplain, Nat.zero_le _⟩
  | (some first, []) => exact ⟨hplain, Nat.zero_le _⟩
  | (some first, [body]) => exact ⟨hplain, Nat.zero_le _⟩
  | (some first, body :: other :: more) =>
    have hbodies : ∀ b ∈ body :: other :: more, b.head? = some first := hgroup
    refine ⟨worksOff_share hd hbodies (List.cons_ne_nil _ _) hadmits _, ?_⟩
    have hlighter := totalBy_length_tail hbodies
    simp only [addGroup, totalBy_cons, totalBy_nil, PendingBodies.weight, List.length_cons]
      at hlighter ⊢
    omega

/-- The rules of the groups of one head. -/
def groupRules (head : NonterminalId) (groups : List (Option Symbol × List (List Symbol))) :
    Set Rule :=
  {rule | ∃ group ∈ groups, rule ∈ rulesFor head group.2}

theorem groupRules_cons (group : Option Symbol × List (List Symbol))
    (groups : List (Option Symbol × List (List Symbol))) :
    groupRules head (group :: groups) = rulesFor head group.2 ∪ groupRules head groups := by
  ext rule
  simp [groupRules]

theorem worksOff_addGroups (hd : d.IsPlain) {groups : List (Option Symbol × List (List Symbol))}
    (hgroups : ∀ group ∈ groups, IsGroup group)
    (hadmits : ∀ rule ∈ groupRules head groups, d.Admits rule) :
    d.WorksOff (d.addGroups head groups).1 (groupRules head groups) (d.addGroups head groups).2 ∧
      totalBy PendingBodies.weight (d.addGroups head groups).2 ≤
        totalBy (fun group => totalBy List.length group.2) groups := by
  induction groups generalizing d with
  | nil =>
      have hnone : groupRules head [] = ∅ := by
        ext rule
        simp [groupRules]
      rw [hnone]
      exact ⟨(Continues.refl hd).worksOff, Nat.le_refl _⟩
  | cons group groups ih =>
      obtain ⟨hgroup, hgroups⟩ := List.forall_mem_cons.mp hgroups
      rw [groupRules_cons] at hadmits ⊢
      have hrest : ∀ rule ∈ groupRules head groups, d.Admits rule := fun rule hrule =>
        hadmits rule (Or.inr hrule)
      obtain ⟨hfirst, hfirstWeight⟩ := worksOff_addGroup hd hgroup fun rule hrule =>
        hadmits rule (Or.inl hrule)
      obtain ⟨hothers, hweight⟩ := ih hfirst.isPlain hgroups fun rule hrule =>
        (hrest rule hrule).extend hfirst.declares
      refine ⟨hfirst.trans hothers hrest, ?_⟩
      simp only [addGroups, totalBy_append, totalBy_cons]
      omega

theorem isGroup_of_mem_groups {pending : PendingBodies}
    {group : Option Symbol × List (List Symbol)} (h : group ∈ pending.groups) : IsGroup group := by
  intro body hbody
  obtain ⟨first, bodies⟩ := group
  have hlisted : (first, body) ∈ pending.bodies.map fun body => (body.head?, body) :=
    OrderedMap.exists_mem_group.mp ⟨bodies, h, hbody⟩
  obtain ⟨_, -, heq⟩ := List.mem_map.mp hlisted
  obtain ⟨hfirst, rfl⟩ := Prod.mk.inj heq
  exact hfirst

/-- The groups divide the bodies among themselves. -/
theorem groupRules_groups (pending : PendingBodies) :
    groupRules pending.head pending.groups = rulesFor pending.head pending.bodies := by
  ext rule
  constructor
  · rintro ⟨⟨first, bodies⟩, hgroup, hhead, hbody⟩
    obtain ⟨body, hmem, heq⟩ := List.mem_map.mp
      (OrderedMap.exists_mem_group.mp ⟨bodies, hgroup, hbody⟩)
    obtain ⟨-, rfl⟩ := Prod.mk.inj heq
    exact ⟨hhead, hmem⟩
  · rintro ⟨hhead, hbody⟩
    have hlisted : (rule.body.head?, rule.body) ∈
        pending.bodies.map fun body => (body.head?, body) := List.mem_map_of_mem hbody
    obtain ⟨bodies, hgroup, hmem⟩ := OrderedMap.exists_mem_group.mpr hlisted
    exact ⟨_, hgroup, hhead, hmem⟩

theorem totalBy_groups (pending : PendingBodies) :
    totalBy (fun group => totalBy List.length group.2) pending.groups =
      totalBy List.length pending.bodies := by
  rw [PendingBodies.groups, OrderedMap.totalBy_group]
  induction pending.bodies with
  | nil => rfl
  | cons body bodies ih => simp only [List.map_cons, totalBy_cons, ih]

/-! ## The queue -/

/-- Working off the first entry of a queue makes the queue lighter, and what it now holds is
admitted. -/
theorem worksOff_pending (hd : d.IsPlain) {pending : PendingBodies} {queue : List PendingBodies}
    (hadmits : ∀ rule ∈ waitingRules (pending :: queue), d.Admits rule) :
    d.WorksOff (d.addGroups pending.head pending.groups).1 (rulesFor pending.head pending.bodies)
        (d.addGroups pending.head pending.groups).2 ∧
      (∀ rule ∈ waitingRules (queue ++ (d.addGroups pending.head pending.groups).2),
        (d.addGroups pending.head pending.groups).1.Admits rule) ∧
      totalBy PendingBodies.weight (queue ++ (d.addGroups pending.head pending.groups).2) <
        totalBy PendingBodies.weight (pending :: queue) := by
  rw [waitingRules_cons, ← groupRules_groups] at hadmits
  obtain ⟨hworks, hweight⟩ := worksOff_addGroups hd (fun _ => isGroup_of_mem_groups)
    fun rule hrule => hadmits rule (Or.inl hrule)
  refine ⟨groupRules_groups pending ▸ hworks, ?_, ?_⟩
  · rw [waitingRules_append]
    rintro rule (hrule | hrule)
    · exact (hadmits rule (Or.inr hrule)).extend hworks.declares
    · exact hworks.admits rule hrule
  · rw [totalBy_groups] at hweight
    simp only [totalBy_append, totalBy_cons, PendingBodies.weight] at hweight ⊢
    omega

/-- With a bound that is not below its weight, the whole queue is worked off. -/
theorem factor_complete (bound : Nat) (queue : List PendingBodies) (hd : d.IsPlain)
    (hadmits : ∀ rule ∈ waitingRules queue, d.Admits rule)
    (hbound : totalBy PendingBodies.weight queue ≤ bound) :
    (factor bound queue d).IsPlain ∧ (factor bound queue d).start = d.start ∧
      ∀ m ∈ d.nonterminals.keys,
        least (factor bound queue d).ruleSet m = least (d.ruleSet ∪ waitingRules queue) m := by
  induction bound generalizing queue d with
  | zero =>
      cases queue with
      | nil =>
          rw [factor, waitingRules_nil, Set.union_empty]
          exact ⟨hd, rfl, fun _ _ => rfl⟩
      | cons pending queue =>
          simp only [totalBy_cons, PendingBodies.weight] at hbound
          omega
  | succ bound ih =>
      cases queue with
      | nil =>
          rw [factor, waitingRules_nil, Set.union_empty]
          exact ⟨hd, rfl, fun _ _ => rfl⟩
      | cons pending queue =>
          have hqueue : ∀ rule ∈ waitingRules queue, d.Admits rule := fun rule hrule =>
            hadmits rule (waitingRules_cons pending queue ▸ Or.inr hrule)
          obtain ⟨hstep, hnext, hlighter⟩ := worksOff_pending hd hadmits
          obtain ⟨hplain, hstart, hleast⟩ := ih _ hstep.isPlain hnext (by omega)
          rw [factor]
          refine ⟨hplain, hstart.trans hstep.start_eq, fun m hm => ?_⟩
          rw [hleast m (hstep.declares.mem_keys hm), waitingRules_append,
            Set.union_comm (waitingRules queue), hstep.least_eq _ hqueue m hm,
            waitingRules_cons]

end Definition

/-! ## The whole pass -/

namespace Grammar

variable {g : Grammar}

theorem waitingRules_bodiesOf (hg : g.IsPlain) :
    waitingRules (g.nonterminals.keys.map fun n => ⟨n, g.bodiesOf n⟩) = g.ruleSet := by
  ext ⟨head, body⟩
  constructor
  · rintro ⟨pending, hpending, hhead, hbody⟩
    obtain ⟨n, -, rfl⟩ := List.mem_map.mp hpending
    obtain rfl : head = n := hhead
    exact mem_bodiesOf.mp hbody
  · intro hrule
    exact ⟨_, List.mem_map_of_mem (hg.heads_declared _ hrule), rfl, mem_bodiesOf.mpr hrule⟩

/-- Left factoring keeps the language of every nonterminal. -/
theorem generated_withoutCommonPrefix (hg : g.IsPlain) :
    g.withoutCommonPrefix.IsPlain ∧ g.withoutCommonPrefix.start = g.start ∧
      ∀ n ∈ g.nonterminals.keys, g.withoutCommonPrefix.generated n = g.generated n := by
  obtain ⟨hplain, hstart, hleast⟩ := Definition.factor_complete (d := g.toDefinition)
    (totalBy PendingBodies.weight (g.nonterminals.keys.map fun n => ⟨n, g.bodiesOf n⟩))
    (g.nonterminals.keys.map fun n => ⟨n, g.bodiesOf n⟩) hg.toDefinition
    (by rw [waitingRules_bodiesOf hg]; exact hg.admits) (Nat.le_refl _)
  obtain ⟨hplain', hstart', hrules⟩ : g.withoutCommonPrefix.IsPlain ∧
      g.withoutCommonPrefix.start = g.start ∧ g.withoutCommonPrefix.ruleSet = _ :=
    isPlain_rebuild _ hplain hstart
  refine ⟨hplain', hstart', fun n hn => ?_⟩
  rw [ruleSet_toDefinition, Set.empty_union, waitingRules_bodiesOf hg] at hleast
  rw [generated_eq_least, generated_eq_least, hrules]
  exact hleast n hn

end Grammar

end GrammarAnalysis

import GrammarAnalysis.Normal.LeftRecursion
import GrammarAnalysis.Proofs.Grammar.Rebuild
import GrammarAnalysis.Proofs.Iteration.Growth

/-!
# Removing left recursion keeps the languages

The rules `n -> n x` repeat the remainders `x` behind a body that does not start
with `n`.  A fresh nonterminal that derives the repetitions takes their place.
The nonterminals are treated one by one: at any time the rules that are done
and those that still wait give every old nonterminal its language, and no rule
that is done starts with its own head.
-/

namespace GrammarAnalysis

open Computability Reading

/-! ## One nonterminal -/

/-- The rules of a nonterminal without left recursion: the fresh nonterminal at the end of
each body derives the repeated remainders. -/
def repeatingRules (n tail : NonterminalId) (others remainders : List (List Symbol)) : Set Rule :=
  rulesFor n (others.map (· ++ [.nonterminal tail])) ∪
    rulesFor tail (remainders.map (· ++ [.nonterminal tail]) ++ [[]])

/-- Whether the bodies of a nonterminal are the given ones, the recursive ones with the given
remainders and perhaps the nonterminal alone, and no body mentions the fresh nonterminal. -/
structure IsSplit (n tail : NonterminalId) (bodies others remainders : List (List Symbol)) :
    Prop where
  ne : n ≠ tail
  avoids : ∀ body ∈ bodies, .nonterminal tail ∉ body
  others_mem : ∀ body ∈ others, body ∈ bodies
  remainders_mem : ∀ x ∈ remainders, .nonterminal n :: x ∈ bodies
  cases : ∀ body ∈ bodies, body ∈ others ∨ body = [.nonterminal n] ∨
    ∃ x ∈ remainders, body = .nonterminal n :: x

section

variable {rules : Set Rule} {n tail m : NonterminalId} {bodies others remainders : List (List Symbol)}
  {L : Reading} {K : Language TerminalId}

theorem solves_repeatingRules : L.Solves (repeatingRules n tail others remainders) ↔
    (∀ form ∈ others, L.ofForm form * L tail ≤ L n) ∧
      (∀ x ∈ remainders, L.ofForm x * L tail ≤ L tail) ∧ 1 ≤ L tail := by
  simp only [repeatingRules, solves_union, solves_rulesFor, List.forall_mem_append,
    List.forall_mem_map, List.forall_mem_singleton, ofForm_append, ofForm_singleton,
    ofSymbol_nonterminal, ofForm_nil]

/-- The language of the fresh nonterminal may be chosen. -/
theorem IsSplit.solves_update (h : IsSplit n tail bodies others remainders)
    (hsolves : L.Solves rules) (hrules : ∀ rule ∈ rules, rule.Avoids tail)
    (hothers : ∀ form ∈ others, L.ofForm form * K ≤ L n)
    (hremainders : ∀ x ∈ remainders, L.ofForm x * K ≤ K) (hnil : 1 ≤ K) :
    Solves (Function.update L tail K) (rules ∪ repeatingRules n tail others remainders) := by
  refine solves_union.mpr ⟨hsolves.update hrules K, solves_repeatingRules.mpr ?_⟩
  rw [Function.update_self, Function.update_of_ne h.ne]
  refine ⟨fun form hform => ?_, fun x hx => ?_, hnil⟩
  · rw [ofForm_update_of_not_mem (h.avoids form (h.others_mem form hform))]
    exact hothers form hform
  · have havoids := h.avoids _ (h.remainders_mem x hx)
    rw [ofForm_update_of_not_mem fun hmem => havoids (List.mem_cons_of_mem _ hmem)]
    exact hremainders x hx

/-- Without left recursion the nonterminal derives no other words: the fresh one
stands for the repeated remainders. -/
theorem IsSplit.least_repeatingRules_le (h : IsSplit n tail bodies others remainders)
    (hrules : ∀ rule ∈ rules, rule.Avoids tail) (hm : m ≠ tail) :
    least (rules ∪ repeatingRules n tail others remainders) m ≤
      least (rules ∪ rulesFor n bodies) m := by
  let L := least (rules ∪ rulesFor n bodies)
  obtain ⟨hsolves, hbody⟩ := solves_union.mp (solves_least (rules ∪ rulesFor n bodies))
  rw [solves_rulesFor] at hbody
  have hrepeated : L n * (L.ofAny remainders)∗ ≤ L n :=
    mul_kstar_le_self (mul_ofAny_le fun x hx => hbody _ (h.remainders_mem x hx))
  have hnew := h.solves_update hsolves hrules
    (fun form hform => (mul_le_mul_left (hbody form (h.others_mem form hform)) _).trans hrepeated)
    (fun x hx => (mul_le_mul_left (ofForm_le_ofAny hx) _).trans mul_kstar_le_kstar) one_le_kstar
  calc
    _ ≤ Function.update L tail (L.ofAny remainders)∗ m := least_le hnew m
    _ = L m := Function.update_of_ne hm _ _

/-- The fresh nonterminal derives exactly the repetitions of the remainders. -/
theorem IsSplit.least_tail_eq (h : IsSplit n tail bodies others remainders)
    (hrules : ∀ rule ∈ rules, rule.Avoids tail) :
    least (rules ∪ repeatingRules n tail others remainders) tail =
      (ofAny (least (rules ∪ repeatingRules n tail others remainders)) remainders)∗ := by
  obtain ⟨hsolves, hnew⟩ :=
    solves_union.mp (solves_least (rules ∪ repeatingRules n tail others remainders))
  generalize hL : least (rules ∪ repeatingRules n tail others remainders) = L at hsolves hnew ⊢
  obtain ⟨hothers, hremainders, hnil⟩ := solves_repeatingRules.mp hnew
  have hge : (L.ofAny remainders)∗ ≤ L tail := kstar_le_of_mul_le_right hnil (ofAny_mul_le hremainders)
  have hupdate := h.solves_update hsolves hrules
    (fun form hform => (mul_le_mul_right hge _).trans (hothers form hform))
    (fun x hx => (mul_le_mul_left (ofForm_le_ofAny hx) _).trans mul_kstar_le_kstar) one_le_kstar
  refine le_antisymm ?_ hge
  have hle := least_le hupdate tail
  rwa [Function.update_self, hL] at hle

/-- A word of the nonterminal is a word of another body, followed by repetitions. -/
theorem IsSplit.least_le_mul (h : IsSplit n tail bodies others remainders)
    (hheads : ∀ rule ∈ rules, rule.head ≠ n) :
    least (rules ∪ repeatingRules n tail others remainders) n ≤
      ofAny (least (rules ∪ repeatingRules n tail others remainders)) others *
        least (rules ∪ repeatingRules n tail others remainders) tail := by
  intro word hword
  obtain ⟨rule, hrule, hhead, hword⟩ := exists_rule_of_mem_least hword
  rcases hrule with hrule | hrule | hrule
  · exact absurd hhead (hheads rule hrule)
  · obtain ⟨form, hform, hbody⟩ := List.mem_map.mp hrule.2
    rw [← hbody, ofForm_append, ofForm_singleton] at hword
    exact mul_le_mul_left (ofForm_le_ofAny hform) _ hword
  · exact absurd (hhead.symm.trans hrule.1) h.ne

/-- What the recursive rules derive is derived by repetition. -/
theorem IsSplit.least_le_repeatingRules (h : IsSplit n tail bodies others remainders)
    (hheads : ∀ rule ∈ rules, rule.head ≠ n) (hrules : ∀ rule ∈ rules, rule.Avoids tail) :
    least (rules ∪ rulesFor n bodies) m ≤
      least (rules ∪ repeatingRules n tail others remainders) m := by
  have htail := h.least_tail_eq hrules
  have hcut := h.least_le_mul hheads
  obtain ⟨hsolves, hnew⟩ :=
    solves_union.mp (solves_least (rules ∪ repeatingRules n tail others remainders))
  generalize least (rules ∪ repeatingRules n tail others remainders) = L at *
  obtain ⟨hothers, -, hnil⟩ := solves_repeatingRules.mp hnew
  refine least_le (solves_union.mpr ⟨hsolves, solves_rulesFor.mpr fun body hbody => ?_⟩) m
  rcases h.cases body hbody with hbody | rfl | ⟨x, hx, rfl⟩
  · calc
      L.ofForm body = L.ofForm body * 1 := (mul_one _).symm
      _ ≤ L.ofForm body * L tail := mul_le_mul_right hnil _
      _ ≤ L n := hothers body hbody
  · rw [ofForm_singleton]
    exact le_rfl
  · calc
      L n * L.ofForm x ≤ L.ofAny others * L tail * L.ofAny remainders :=
        mul_le_mul' hcut (ofForm_le_ofAny hx)
      _ = L.ofAny others * (L tail * L.ofAny remainders) := mul_assoc _ _ _
      _ ≤ L.ofAny others * L tail := by
        rw [htail]
        exact mul_le_mul_right kstar_mul_le_kstar _
      _ ≤ L n := ofAny_mul_le hothers

/-- The bodies with the fresh nonterminal at the end do not start with their heads. -/
theorem IsSplit.head?_ne_of_mem (h : IsSplit n tail bodies others remainders)
    (hothers : ∀ form ∈ others, form.head? ≠ some (.nonterminal n))
    (hremainders : ∀ x ∈ remainders, x ≠ []) :
    ∀ rule ∈ repeatingRules n tail others remainders,
      rule.body.head? ≠ some (.nonterminal rule.head) := by
  rintro rule (⟨hhead, hbody⟩ | ⟨hhead, hbody⟩) <;> rw [hhead]
  · obtain ⟨form, hform, heq⟩ := List.mem_map.mp hbody
    rw [← heq]
    cases form with
    | nil => simpa using h.ne.symm
    | cons s form => exact hothers (s :: form) hform
  · rcases List.mem_append.mp hbody with hbody | hbody
    · obtain ⟨x, hx, heq⟩ := List.mem_map.mp hbody
      obtain ⟨s, x, rfl⟩ := List.exists_cons_of_ne_nil (hremainders x hx)
      have havoids := h.avoids _ (h.remainders_mem _ hx)
      rw [← heq]
      intro hs
      exact havoids (by simp [Option.some.inj hs])
    · rw [List.mem_singleton.mp hbody]
      simp

/-- Without recursive remainders, only the rule `n -> n` goes. -/
theorem least_withoutSelfRule (hothers : ∀ body ∈ others, body ∈ bodies)
    (hsplit : ∀ body ∈ bodies, body ∈ others ∨ body = [.nonterminal n]) :
    least (rules ∪ rulesFor n others) = least (rules ∪ rulesFor n bodies) := by
  funext m
  refine le_antisymm (least_mono ?_ m) (least_le ?_ m)
  · exact Set.union_subset_union_right _ fun rule hrule => ⟨hrule.1, hothers _ hrule.2⟩
  · obtain ⟨hsolves, hbody⟩ := solves_union.mp (solves_least (rules ∪ rulesFor n others))
    rw [solves_rulesFor] at hbody
    refine solves_union.mpr ⟨hsolves, solves_rulesFor.mpr fun body hmem => ?_⟩
    rcases hsplit body hmem with hmem | rfl
    · exact hbody body hmem
    · rw [ofForm_singleton]
      exact le_rfl

end

/-! ## The step of the pass -/

namespace Grammar

variable {g : Grammar} {d : Definition} {n m : NonterminalId} {name : String}

theorem mem_recursiveTails {x : List Symbol} :
    x ∈ g.recursiveTails n ↔ x ≠ [] ∧ .nonterminal n :: x ∈ g.bodiesOf n := by
  rw [recursiveTails, List.mem_filterMap]
  constructor
  · rintro ⟨body, hbody, hx⟩
    match body with
    | [] | [_] => simp at hx
    | first :: second :: rest =>
      simp only [Option.ite_none_right_eq_some, Option.some.injEq] at hx
      obtain ⟨rfl, rfl⟩ := hx
      exact ⟨List.cons_ne_nil _ _, hbody⟩
  · rintro ⟨hne, hbody⟩
    obtain ⟨second, rest, rfl⟩ := List.exists_cons_of_ne_nil hne
    exact ⟨_, hbody, by simp⟩

theorem mem_otherBodies {body : List Symbol} :
    body ∈ g.otherBodies n ↔ body ∈ g.bodiesOf n ∧ body.head? ≠ some (.nonterminal n) := by
  rw [otherBodies, List.mem_filter, decide_eq_true_eq]

theorem bodiesOf_cases {body : List Symbol} (h : body ∈ g.bodiesOf n) :
    body ∈ g.otherBodies n ∨ body = [.nonterminal n] ∨
      ∃ x ∈ g.recursiveTails n, body = .nonterminal n :: x := by
  by_cases hhead : body.head? = some (.nonterminal n)
  · obtain ⟨x, rfl⟩ := List.head?_eq_some_iff.mp hhead
    by_cases hx : x = []
    · exact Or.inr (Or.inl (by rw [hx]))
    · exact Or.inr (Or.inr ⟨x, mem_recursiveTails.mpr ⟨hx, h⟩, rfl⟩)
  · exact Or.inl (mem_otherBodies.mpr ⟨h, hhead⟩)

/-- The bodies of a declared nonterminal are split, with what is not declared as the fresh one. -/
theorem isSplit_bodiesOf {tail : NonterminalId} (hadmits : ∀ body ∈ g.bodiesOf n, d.Admits ⟨n, body⟩)
    (hn : n ∈ d.nonterminals.keys) (hnew : tail ∉ d.nonterminals.keys) :
    IsSplit n tail (g.bodiesOf n) (g.otherBodies n) (g.recursiveTails n) where
  ne h := hnew (h ▸ hn)
  avoids body hbody := ((hadmits body hbody).avoids hnew).2
  others_mem _ hbody := (mem_otherBodies.mp hbody).1
  remainders_mem _ hx := (mem_recursiveTails.mp hx).2
  cases _ := bodiesOf_cases

/-- Treating one nonterminal: the definition stays plain, the new rules belong to the
nonterminal or to a fresh one, and the languages stay. -/
structure Treats (g : Grammar) (n : NonterminalId) (d d' : Definition) : Prop where
  isPlain : d'.IsPlain
  declares : d.Extends d'
  start_eq : d'.start = d.start
  heads : ∀ rule ∈ d'.ruleSet,
    rule ∈ d.ruleSet ∨ rule.head = n ∨ rule.head ∉ d.nonterminals.keys
  least_eq : ∀ rules : Set Rule, (∀ rule ∈ rules, d.Admits rule ∧ rule.head ≠ n) →
    (∀ rule ∈ d.ruleSet, rule.head ≠ n) → ∀ m ∈ d.nonterminals.keys,
      least (d'.ruleSet ∪ rules) m = least (d.ruleSet ∪ (rulesFor n (g.bodiesOf n) ∪ rules)) m

/-- Without recursive bodies the other bodies are kept. -/
theorem treats_ensureRules (hd : d.IsPlain) (hadmits : ∀ body ∈ g.bodiesOf n, d.Admits ⟨n, body⟩)
    (hnone : g.recursiveTails n = []) : g.Treats n d (d.ensureRules n (g.otherBodies n)) := by
  have hothers : ∀ body ∈ g.otherBodies n, body ∈ g.bodiesOf n := fun body hbody =>
    (mem_otherBodies.mp hbody).1
  have hadded := d.continues_ensureRules hd fun body hbody => hadmits body (hothers body hbody)
  refine ⟨hadded.isPlain, hadded.declares, hadded.start_eq, ?_, ?_⟩
  · rw [hadded.ruleSet_eq]
    rintro rule (hrule | hrule)
    · exact Or.inl hrule
    · exact Or.inr (Or.inl hrule.1)
  · intro rules _ _ m _
    rw [hadded.ruleSet_eq, Set.union_right_comm, Set.union_comm (rulesFor n (g.bodiesOf n)),
      ← Set.union_assoc]
    refine congrFun (least_withoutSelfRule hothers fun body hbody => ?_) m
    have hsplit := bodiesOf_cases hbody
    rw [hnone] at hsplit
    simpa using hsplit

/-- The definition with a fresh nonterminal for the repeated remainders of `n`. -/
def addRepeating (g : Grammar) (d : Definition) (n : NonterminalId) (name : String) : Definition :=
  ((d.freshNonterminal name).2.ensureRules n ((g.otherBodies n).map
      (· ++ [.nonterminal (d.freshNonterminal name).1]))).ensureRules
    (d.freshNonterminal name).1
    ((g.recursiveTails n).map (· ++ [.nonterminal (d.freshNonterminal name).1]) ++ [[]])

/-- The rules of `n` are added with the fresh nonterminal in the place of the recursion. -/
theorem continues_addRepeating (hd : d.IsPlain)
    (hadmits : ∀ body ∈ g.bodiesOf n, d.Admits ⟨n, body⟩) (name : String) :
    d.Continues (g.addRepeating d n name) (repeatingRules n (d.freshNonterminal name).1
      (g.otherBodies n) (g.recursiveTails n)) := by
  obtain ⟨hfresh, -, htail⟩ := d.continues_freshNonterminal hd name
  have hclosed : ∀ body ∈ (g.otherBodies n).map
      (· ++ [.nonterminal (d.freshNonterminal name).1]),
      (d.freshNonterminal name).2.Admits ⟨n, body⟩ :=
    List.forall_mem_map.mpr fun form hform =>
      ((hadmits form (mem_otherBodies.mp hform).1).extend hfresh.declares).concat htail
  have hone := Definition.continues_ensureRules hfresh.isPlain hclosed
  have hdeclared := hone.declares _ htail
  have hrepeated : ∀ body ∈ (g.recursiveTails n).map
      (· ++ [.nonterminal (d.freshNonterminal name).1]) ++ [[]],
      ((d.freshNonterminal name).2.ensureRules n ((g.otherBodies n).map
        (· ++ [.nonterminal (d.freshNonterminal name).1]))).Admits
          ⟨(d.freshNonterminal name).1, body⟩ := by
    refine List.forall_mem_append.mpr ⟨List.forall_mem_map.mpr fun x hx => ?_, ?_⟩
    · have hrecursive := ((hadmits _ (mem_recursiveTails.mp hx).2).extend hfresh.declares).extend
        hone.declares
      exact Definition.Admits.concat ⟨hdeclared, (List.forall_mem_cons.mp hrecursive.body).2⟩
        hdeclared
    · rw [List.forall_mem_singleton]
      exact ⟨hdeclared, by simp⟩
  have htwo := Definition.continues_ensureRules hone.isPlain hrepeated
  have hall := hfresh.trans (hone.trans htwo)
  rwa [Set.empty_union] at hall

theorem treats_addRepeating (hd : d.IsPlain) (hadmits : ∀ body ∈ g.bodiesOf n, d.Admits ⟨n, body⟩)
    (hn : n ∈ d.nonterminals.keys) (name : String) : g.Treats n d (g.addRepeating d n name) := by
  have hadded := continues_addRepeating hd hadmits name
  obtain ⟨-, hnew, -⟩ := d.continues_freshNonterminal hd name
  generalize (d.freshNonterminal name).1 = tail at hadded hnew
  have hsplit := isSplit_bodiesOf hadmits hn hnew
  refine ⟨hadded.isPlain, hadded.declares, hadded.start_eq, ?_, ?_⟩
  · rw [hadded.ruleSet_eq]
    rintro rule (hrule | hrule | hrule)
    · exact Or.inl hrule
    · exact Or.inr (Or.inl hrule.1)
    · refine Or.inr (Or.inr ?_)
      rw [hrule.1]
      exact hnew
  · intro rules hrules hheads m hm
    have havoid := hd.avoids_of_admits (fun rule hrule => (hrules rule hrule).1) hnew
    have hothers : ∀ rule ∈ d.ruleSet ∪ rules, rule.head ≠ n := by
      rintro rule (hrule | hrule)
      · exact hheads rule hrule
      · exact (hrules rule hrule).2
    rw [hadded.ruleSet_eq, Set.union_right_comm d.ruleSet,
      Set.union_comm (rulesFor n (g.bodiesOf n)), ← Set.union_assoc d.ruleSet]
    exact le_antisymm (hsplit.least_repeatingRules_le havoid fun h => hnew (h ▸ hm))
      (hsplit.least_le_repeatingRules hothers havoid)

theorem addWithoutRecursion_of_nil (hnone : g.recursiveTails n = []) :
    g.addWithoutRecursion d n name = d.ensureRules n (g.otherBodies n) := by
  simp only [addWithoutRecursion, hnone]

theorem addWithoutRecursion_of_ne_nil (hsome : g.recursiveTails n ≠ []) :
    g.addWithoutRecursion d n name = g.addRepeating d n name := by
  obtain ⟨first, rest, hremainders⟩ := List.exists_cons_of_ne_nil hsome
  simp only [addWithoutRecursion, addRepeating, hremainders]

theorem treats_addWithoutRecursion (hd : d.IsPlain)
    (hadmits : ∀ body ∈ g.bodiesOf n, d.Admits ⟨n, body⟩) (hn : n ∈ d.nonterminals.keys)
    (name : String) : g.Treats n d (g.addWithoutRecursion d n name) := by
  by_cases hremainders : g.recursiveTails n = []
  · rw [addWithoutRecursion_of_nil hremainders]
    exact treats_ensureRules hd hadmits hremainders
  · rw [addWithoutRecursion_of_ne_nil hremainders]
    exact treats_addRepeating hd hadmits hn name

/-! ## The whole pass -/

/-- The rules of the listed heads. -/
def rulesOfHeads (g : Grammar) (heads : List NonterminalId) : Set Rule :=
  {rule ∈ g.ruleSet | rule.head ∈ heads}

theorem rulesOfHeads_nil (g : Grammar) : g.rulesOfHeads [] = ∅ := by
  ext rule
  simp [rulesOfHeads]

theorem rulesOfHeads_cons (g : Grammar) (n : NonterminalId) (heads : List NonterminalId) :
    g.rulesOfHeads (n :: heads) = rulesFor n (g.bodiesOf n) ∪ g.rulesOfHeads heads := by
  ext ⟨head, body⟩
  simp only [rulesOfHeads, Set.mem_union, mem_rulesFor, mem_bodiesOf, Set.mem_sep_iff,
    List.mem_cons]
  constructor
  · rintro ⟨hrule, rfl | hhead⟩
    · exact Or.inl ⟨rfl, hrule⟩
    · exact Or.inr ⟨hrule, hhead⟩
  · rintro (⟨rfl, hrule⟩ | ⟨hrule, hhead⟩)
    · exact ⟨hrule, Or.inl rfl⟩
    · exact ⟨hrule, Or.inr hhead⟩

theorem IsPlain.rulesOfHeads_keys (hg : g.IsPlain) :
    g.rulesOfHeads g.nonterminals.keys = g.ruleSet := by
  ext rule
  exact and_iff_left_of_imp fun hrule => hg.heads_declared rule hrule

/-- Treating the nonterminals one after the other. -/
theorem foldl_addWithoutRecursion (hg : g.IsPlain) (entries : List (NonterminalId × String))
    (hd : d.IsPlain) (hdeclares : g.toDefinition.Extends d)
    (hentries : ∀ entry ∈ entries, entry.1 ∈ g.nonterminals.keys)
    (hnodup : (entries.map Prod.fst).Nodup)
    (hwaiting : ∀ rule ∈ d.ruleSet, rule.head ∉ entries.map Prod.fst) :
    let d' := entries.foldl (fun d entry => g.addWithoutRecursion d entry.1 entry.2) d
    d'.IsPlain ∧ d'.start = d.start ∧ ∀ m ∈ g.nonterminals.keys,
      least d'.ruleSet m = least (d.ruleSet ∪ g.rulesOfHeads (entries.map Prod.fst)) m := by
  induction entries generalizing d with
  | nil =>
      refine ⟨hd, rfl, fun m _ => ?_⟩
      rw [List.map_nil, rulesOfHeads_nil, Set.union_empty]
      rfl
  | cons entry entries ih =>
      obtain ⟨n, name⟩ := entry
      obtain ⟨hn, hentries⟩ := List.forall_mem_cons.mp hentries
      obtain ⟨hnew, hnodup⟩ := List.nodup_cons.mp hnodup
      have hkeys : ∀ {m}, m ∈ g.nonterminals.keys → m ∈ d.nonterminals.keys := fun hm =>
        hdeclares.mem_keys hm
      have hstep := treats_addWithoutRecursion (g := g) hd
        (fun body hbody => (hg.admits _ (mem_bodiesOf.mp hbody)).extend hdeclares) (hkeys hn) name
      have hwaiting' : ∀ rule ∈ (g.addWithoutRecursion d n name).ruleSet,
          rule.head ∉ entries.map Prod.fst := by
        intro rule hrule hmem
        rcases hstep.heads rule hrule with hold | hhead | hfresh
        · exact hwaiting rule hold (List.mem_cons_of_mem _ hmem)
        · exact hnew (hhead ▸ hmem)
        · obtain ⟨entry, hentry, hhead⟩ := List.mem_map.mp hmem
          exact hfresh (hkeys (hhead ▸ hentries entry hentry))
      have hothers : ∀ rule ∈ g.rulesOfHeads (entries.map Prod.fst),
          d.Admits rule ∧ rule.head ≠ n := fun rule hrule =>
        ⟨(hg.admits rule hrule.1).extend hdeclares, fun hhead => hnew (hhead ▸ hrule.2)⟩
      obtain ⟨hplain, hstart, hleast⟩ := ih hstep.isPlain (hdeclares.trans hstep.declares) hentries
        hnodup hwaiting'
      refine ⟨hplain, hstart.trans hstep.start_eq, fun m hm => ?_⟩
      rw [List.foldl_cons, hleast m hm, List.map_cons, rulesOfHeads_cons]
      exact hstep.least_eq _ hothers
        (fun rule hrule hhead => hwaiting rule hrule (by simp [hhead])) m (hkeys hm)

/-! ## No left recursion remains -/

/-- Whether no body starts with its own head. -/
def IsRecursionFree (rules : Set Rule) : Prop :=
  ∀ rule ∈ rules, rule.body.head? ≠ some (.nonterminal rule.head)

theorem isRecursionFree_addWithoutRecursion (hd : d.IsPlain)
    (hadmits : ∀ body ∈ g.bodiesOf n, d.Admits ⟨n, body⟩) (hn : n ∈ d.nonterminals.keys)
    (hfree : IsRecursionFree d.ruleSet) (name : String) :
    IsRecursionFree (g.addWithoutRecursion d n name).ruleSet := by
  by_cases hremainders : g.recursiveTails n = []
  · have hadded := d.continues_ensureRules hd fun body (hbody : body ∈ g.otherBodies n) =>
      hadmits body (mem_otherBodies.mp hbody).1
    rw [addWithoutRecursion_of_nil hremainders, hadded.ruleSet_eq]
    rintro rule (hrule | ⟨hhead, hbody⟩)
    · exact hfree rule hrule
    · rw [hhead]
      exact (mem_otherBodies.mp hbody).2
  · have hadded := continues_addRepeating hd hadmits name
    obtain ⟨-, hnew, -⟩ := d.continues_freshNonterminal hd name
    rw [addWithoutRecursion_of_ne_nil hremainders, hadded.ruleSet_eq]
    rintro rule (hrule | hrule)
    · exact hfree rule hrule
    · exact (isSplit_bodiesOf hadmits hn hnew).head?_ne_of_mem
        (fun form hform => (mem_otherBodies.mp hform).2)
        (fun x hx => (mem_recursiveTails.mp hx).1) rule hrule

theorem isRecursionFree_withoutLeftRecursion (hg : g.IsPlain) :
    IsRecursionFree g.withoutLeftRecursion.ruleSet := by
  -- Every step needs that the definition is plain and still declares what the grammar does.
  have hstep : ∀ d : Definition, ∀ entry ∈ g.nonterminals.entries,
      d.IsPlain ∧ g.toDefinition.Extends d ∧ IsRecursionFree d.ruleSet →
        (g.addWithoutRecursion d entry.1 entry.2).IsPlain ∧
          g.toDefinition.Extends (g.addWithoutRecursion d entry.1 entry.2) ∧
          IsRecursionFree (g.addWithoutRecursion d entry.1 entry.2).ruleSet := by
    rintro d entry hentry ⟨hd, hdeclares, hfree⟩
    have hn := hdeclares.mem_keys (List.mem_map_of_mem (f := Prod.fst) hentry)
    have hadmits : ∀ body ∈ g.bodiesOf entry.1, d.Admits ⟨entry.1, body⟩ := fun body hbody =>
      (hg.admits _ (mem_bodiesOf.mp hbody)).extend hdeclares
    have htreats := treats_addWithoutRecursion hd hadmits hn entry.2
    exact ⟨htreats.isPlain, hdeclares.trans htreats.declares,
      isRecursionFree_addWithoutRecursion hd hadmits hn hfree entry.2⟩
  have hnone : IsRecursionFree g.toDefinition.ruleSet := by
    rw [ruleSet_toDefinition]
    exact fun rule hrule => absurd hrule (Set.notMem_empty rule)
  exact (foldl_keeps hstep ⟨hg.toDefinition, Definition.Extends.refl _, hnone⟩).2.2

/-! ## The languages -/

/-- Removing left recursion keeps the language of every nonterminal. -/
theorem generated_withoutLeftRecursion (hg : g.IsPlain) :
    g.withoutLeftRecursion.IsPlain ∧ g.withoutLeftRecursion.start = g.start ∧
      ∀ n ∈ g.nonterminals.keys, g.withoutLeftRecursion.generated n = g.generated n := by
  obtain ⟨hplain, hstart, hleast⟩ := foldl_addWithoutRecursion hg g.nonterminals.entries
    hg.toDefinition (Definition.Extends.refl _) (fun _ hentry => List.mem_map_of_mem hentry)
    g.nonterminals.nodup (by rw [ruleSet_toDefinition]; exact fun _ h => absurd h (by simp))
  obtain ⟨hplain', hstart', hrules⟩ : g.withoutLeftRecursion.IsPlain ∧
      g.withoutLeftRecursion.start = g.start ∧ g.withoutLeftRecursion.ruleSet = _ :=
    isPlain_rebuild _ hplain hstart
  refine ⟨hplain', hstart', fun n hn => ?_⟩
  rw [ruleSet_toDefinition, Set.empty_union] at hleast
  rw [generated_eq_least, generated_eq_least, hrules]
  exact (hleast n hn).trans (congrArg (least · n) hg.rulesOfHeads_keys)

end Grammar

end GrammarAnalysis

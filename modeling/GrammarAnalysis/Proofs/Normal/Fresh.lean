import GrammarAnalysis.Proofs.Grammar.Acceptance
import GrammarAnalysis.Proofs.Normal.Factored
import GrammarAnalysis.Proofs.Normal.LeftRecursion
import GrammarAnalysis.Proofs.Normal.Numbers

/-!
# How many fresh nonterminals the passes add

Removing left recursion adds a fresh nonterminal for each one that is left recursive.
Left factoring adds one for every symbol that two bodies share at their beginning.
Hence these passes can need more numbers than there are, although the grammar that they
start from has numbers for all its symbols and rules.
-/

namespace GrammarAnalysis

section Lists

variable {α β : Type} {R : α → β → Prop} {as : List α} {bs : List β} {a : α} {b : β}

theorem exists_mem_of_forall₂ (h : List.Forall₂ R as bs) (hb : b ∈ bs) : ∃ a ∈ as, R a b := by
  induction h with
  | nil => contradiction
  | cons hfirst _ ih =>
      rcases List.mem_cons.mp hb with rfl | hb
      · exact ⟨_, List.mem_cons_self, hfirst⟩
      · obtain ⟨a, ha, hab⟩ := ih hb
        exact ⟨a, List.mem_cons_of_mem _ ha, hab⟩

theorem eq_replicate_of_forall₂ {count : Nat} (h : List.Forall₂ R as (List.replicate count b))
    (hunique : ∀ a', R a' b → a' = a) : as = List.replicate count a := by
  refine List.eq_replicate_iff.mpr ⟨h.length_eq.trans List.length_replicate, fun a' ha' => ?_⟩
  obtain ⟨b', hb', hab⟩ := exists_mem_of_forall₂ h.flip ha'
  rw [List.eq_of_mem_replicate hb'] at hab
  exact hunique a' hab

end Lists

namespace Definition

variable {g : Grammar} {d d' last : Definition} {n : NonterminalId}

theorem length_keys_freshNonterminal (hd : d.IsTight) (base : String) :
    (d.freshNonterminal base).2.nonterminals.keys.length = d.nonterminals.keys.length + 1 := by
  have hnew : d.nextNonterminal ∉ d.nonterminals.keys := by
    rw [hd.nonterminals]
    exact fun hmem => (lt_nextNumber hmem).ne rfl
  rw [freshNonterminal, addNonterminal, OrderedMap.keys_insert_of_not_mem hnew,
    List.length_append, List.length_singleton]

/-- Adding rules and nonterminals takes no nonterminals away. -/
theorem Adds.length_keys_le (h : d.Adds d') (hd : d.IsTight) :
    d.nonterminals.keys.length ≤ d'.nonterminals.keys.length := by
  induction h with
  | refl => exact Nat.le_refl _
  | ensureRule _ head body ih => rwa [nonterminals_ensureRule]
  | freshNonterminal h base ih =>
      rw [length_keys_freshNonterminal (h.isTight hd)]
      exact Nat.le_succ_of_le ih

/-! ## Left recursion -/

/-- A nonterminal that is left recursive gets a fresh one. -/
theorem length_keys_addWithoutRecursion (hd : d.IsTight) (g : Grammar) (n : NonterminalId)
    (name : String) : (g.addWithoutRecursion d n name).nonterminals.keys.length =
      d.nonterminals.keys.length + if g.recursiveTails n = [] then 0 else 1 := by
  by_cases hnone : g.recursiveTails n = []
  · rw [Grammar.addWithoutRecursion_of_nil hnone, nonterminals_ensureRules, if_pos hnone]
    rfl
  · rw [Grammar.addWithoutRecursion_of_ne_nil hnone, Grammar.addRepeating,
      nonterminals_ensureRules, nonterminals_ensureRules, length_keys_freshNonterminal hd,
      if_neg hnone]

theorem length_keys_foldl_addWithoutRecursion (hd : d.IsTight)
    (entries : List (NonterminalId × String)) :
    (entries.foldl (fun d entry =>
        g.addWithoutRecursion d entry.1 entry.2) d).nonterminals.keys.length =
      d.nonterminals.keys.length +
        (entries.map Prod.fst).countP fun n => g.recursiveTails n ≠ [] := by
  induction entries generalizing d with
  | nil => rfl
  | cons entry entries ih =>
      have hfirst := Adds.addWithoutRecursion g d entry.1 entry.2
      rw [List.foldl_cons, ih (hfirst.isTight hd), length_keys_addWithoutRecursion hd,
        List.map_cons, List.countP_cons]
      by_cases hnone : g.recursiveTails entry.1 = []
      · simp [hnone]
      · simp [hnone]
        omega

/-! ## Common prefixes -/

theorem Factors.adds {queue : List PendingBodies} (h : Factors queue d last) : d.Adds last := by
  induction h with
  | done d => exact .refl d
  | next _ ih => exact (Adds.addGroups _ _ _).trans ih

theorem addGroups_pair (d : Definition) (n : NonterminalId) (s : Symbol) (x y : List Symbol) :
    d.addGroups n (PendingBodies.groups ⟨n, [s :: x, s :: y]⟩) =
      (d.share n s ((d.nonterminals.get? n).getD ""),
        [⟨(d.freshNonterminal ((d.nonterminals.get? n).getD "")).1, [x, y]⟩]) := by
  have hgroups : PendingBodies.groups ⟨n, [s :: x, s :: y]⟩ = [(some s, [s :: x, s :: y])] := by
    have hempty : (∅ : OrderedMap (Option Symbol) (List (List Symbol))).entries = [] := rfl
    simp [PendingBodies.groups, OrderedMap.group, OrderedMap.upsert, hempty, OrderedMap.place]
  rw [hgroups]
  rfl

/-- Two bodies that share a number of symbols lead to as many fresh nonterminals. -/
theorem Factors.length_keys_le {count : Nat} {s : Symbol} {rest : List Symbol}
    (h : Factors [⟨n, [List.replicate count s, List.replicate count s ++ rest]⟩] d last)
    (hd : d.IsTight) : d.nonterminals.keys.length + count ≤ last.nonterminals.keys.length := by
  induction count generalizing d n with
  | zero => exact h.adds.length_keys_le hd
  | succ count ih =>
      cases h with
      | next hrest =>
          rw [List.replicate_succ, List.cons_append, addGroups_pair, List.nil_append] at hrest
          have htight : (d.share n s ((d.nonterminals.get? n).getD "")).IsTight :=
            (hd.freshNonterminal _).ensureRule _ _
          have hlater := ih hrest htight
          rw [share, nonterminals_ensureRule, length_keys_freshNonterminal hd] at hlater
          omega

end Definition

namespace Grammar

variable {g : Grammar} {n : NonterminalId} {heads : List String} {rules : List NamedRule}

/-- Without left recursion there is one nonterminal more for each that was left recursive. -/
theorem length_keys_withoutLeftRecursion (g : Grammar) :
    g.withoutLeftRecursion.nonterminals.keys.length = g.nonterminals.keys.length +
      g.nonterminals.keys.countP fun n => g.recursiveTails n ≠ [] :=
  Definition.length_keys_foldl_addWithoutRecursion g.isTight_toDefinition g.nonterminals.entries

/-- The only nonterminal has two bodies that share a number of symbols. -/
theorem lt_length_keys_withoutCommonPrefix (hg : g.IsPlain) {count : Nat} {s : Symbol}
    {rest : List Symbol} (hkeys : g.nonterminals.keys = [n])
    (hbodies : g.bodiesOf n = [List.replicate count s, List.replicate count s ++ rest]) :
    count < g.withoutCommonPrefix.nonterminals.keys.length := by
  obtain ⟨⟨last, hends, hlast⟩, -⟩ := exists_factors_withoutCommonPrefix hg
  rw [pendingBodies, hkeys, List.map_singleton, hbodies] at hends
  have hlength := hends.length_keys_le g.isTight_toDefinition
  rw [toDefinition, hkeys, List.length_singleton] at hlength
  rw [hlast]
  change count < last.nonterminals.keys.length
  omega

/-! ## Texts -/

theorem length_terminalNames_le {names : List String}
    (hunused : ∀ rule ∈ rules, endOfInputName ∉ rule.2)
    (hnames : ∀ rule ∈ rules, ∀ name ∈ rule.2, name ∈ heads ∨ name ∈ names) :
    (terminalNames heads (rules.flatMap Prod.snd)).length ≤ names.length + 1 := by
  rw [← List.length_cons (a := endOfInputName)]
  refine (List.subperm_of_subset (nodup_terminalNames heads hunused) ?_).length_le
  intro name hname
  rcases mem_terminalNames.mp hname with rfl | ⟨hread, hother⟩
  · exact List.mem_cons_self
  · obtain ⟨rule, hrule, hmem⟩ := List.mem_flatMap.mp hread
    exact List.mem_cons_of_mem _ ((hnames rule hrule name hmem).resolve_left hother)

/-- Characters behind all those that are blank can be names. -/
theorem name_of_le_toNat {c : Char} (h : 65536 ≤ c.toNat) :
    Text.isBlank c = false ∧ c ≠ '|' ∧ c ≠ '$' := by
  refine ⟨?_, ?_, ?_⟩
  · have hranges : ∀ range ∈ Text.blankRanges, range.2 < 65536 := by decide
    rw [Text.isBlank, List.any_eq_false]
    intro range hrange
    have hbelow := hranges range hrange
    simp only [Bool.and_eq_true, decide_eq_true_eq]
    omega
  · rintro rfl
    exact absurd h (by decide)
  · rintro rfl
    exact absurd h (by decide)

/-- Nonterminals with a left-recursive rule each, and no other one. -/
def loopingRules (chars : List Char) : List NamedRule :=
  chars.map fun c => (c.toString, [c.toString, "a"])

variable {chars : List Char}

theorem toString_injective : Function.Injective Char.toString := by
  intro c c' h
  simpa using congrArg String.toList h

theorem isPrintable_loopingRules (hnodup : chars.Nodup)
    (h : ∀ c ∈ chars, Text.isBlank c = false ∧ c ≠ '|' ∧ c ≠ '$') :
    NamedRule.IsPrintable (chars.map Char.toString) (loopingRules chars) where
  heads_nodup := hnodup.map toString_injective
  rules_nodup := hnodup.map fun _ _ heq => toString_injective (Prod.mk.inj heq).1
  exists_char head hhead := by
    obtain ⟨c, hc, rfl⟩ := List.mem_map.mp hhead
    exact ⟨c, rfl, (h c hc).1, (h c hc).2.2⟩
  bodies_ne_nil head hhead := by
    obtain ⟨c, hc, rfl⟩ := List.mem_map.mp hhead
    exact List.ne_nil_of_mem (NamedRule.mem_bodiesOf_iff.mpr (List.mem_map_of_mem hc))
  head_mem rule hrule := by
    obtain ⟨c, hc, rfl⟩ := List.mem_map.mp hrule
    exact List.mem_map_of_mem hc
  isBodyName rule hrule name hname := by
    obtain ⟨c, hc, rfl⟩ := List.mem_map.mp hrule
    rcases List.mem_pair.mp hname with rfl | rfl
    · exact isBodyName_toString (h c hc).1 (h c hc).2.1 (h c hc).2.2
    · exact isBodyName_toString (c := 'a') (by decide) (by decide) (by decide)

theorem canAdd_of_isPrintable {names : List String} (h : NamedRule.IsPrintable heads rules)
    (hnames : ∀ rule ∈ rules, ∀ name ∈ rule.2, name ∈ heads ∨ name ∈ names)
    (hterminals : names.length < lastNumber) (hrules : rules.length < lastNumber) :
    CanAdd heads rules := by
  have hunused : ∀ rule ∈ rules, endOfInputName ∉ rule.2 := fun rule hrule hend =>
    (h.isBodyName rule hrule _ hend).ne_endOfInput rfl
  exact ⟨hunused, h.rules_nodup, (length_terminalNames_le hunused hnames).trans hterminals, hrules⟩

/-- A nonterminal is left recursive if one of its bodies is read as its own name and more. -/
theorem recursiveTails_ne_nil {head name : String} {names : List String} (hg : g.IsPlain)
    (hlists : g.Lists rules) (hn : g.nonterminals.get? n = some head)
    (hbody : head :: name :: names ∈ NamedRule.bodiesOf rules head) :
    g.recursiveTails n ≠ [] := by
  obtain ⟨body, hbody, hnamed⟩ := exists_mem_of_forall₂
    (hg.toWellFormed.forall₂_bodiesOf hlists hn) hbody
  obtain ⟨s, rest, hs, hrest, rfl⟩ := List.forall₂_cons_right_iff.mp hnamed
  obtain rfl : s = .nonterminal n := hg.eq_of_name? _ _ _ hs hn
  refine List.ne_nil_of_mem (mem_recursiveTails.mpr ⟨?_, hbody⟩)
  rintro rfl
  cases hrest

/-- Each of these nonterminals gets a fresh one. -/
theorem exists_ofText_loopingRules (hne : chars ≠ []) (hnodup : chars.Nodup)
    (h : ∀ c ∈ chars, Text.isBlank c = false ∧ c ≠ '|' ∧ c ≠ '$')
    (hfew : chars.length < lastNumber) :
    ∃ g, ofText (NamedRule.text (chars.map Char.toString) (loopingRules chars)) = .ok g ∧
      g.withoutLeftRecursion.nonterminals.keys.length = 2 * chars.length := by
  have hprintable := isPrintable_loopingRules hnodup h
  have hnames : ∀ rule ∈ loopingRules chars, ∀ name ∈ rule.2,
      name ∈ chars.map Char.toString ∨ name ∈ ["a"] := by
    intro rule hrule name hname
    obtain ⟨c, hc, rfl⟩ := List.mem_map.mp hrule
    rcases List.mem_pair.mp hname with rfl | rfl
    · exact Or.inl (List.mem_map_of_mem hc)
    · exact Or.inr (List.mem_singleton_self _)
  have hadd := canAdd_of_isPrintable hprintable hnames (by decide)
    (by rwa [loopingRules, List.length_map])
  obtain ⟨g, hg, hvalues, hlists⟩ := exists_ofText_of_isPrintable hprintable (by simpa using hne)
    (by rwa [List.length_map]) hadd
  have hrecursive : ∀ n ∈ g.nonterminals.keys, g.recursiveTails n ≠ [] := by
    intro n hn
    obtain ⟨head, hhead⟩ := OrderedMap.mem_keys_iff.mp hn
    have hmem := OrderedMap.mem_values_of_get? hhead
    rw [hvalues] at hmem
    obtain ⟨c, hc, rfl⟩ := List.mem_map.mp hmem
    apply recursiveTails_ne_nil (isPlain_of_ofText hg) hlists hhead
    rw [NamedRule.bodiesOf_gathered hprintable.heads_nodup hmem, NamedRule.mem_bodiesOf_iff]
    exact List.mem_map_of_mem hc
  have hkeys : g.nonterminals.keys.length = chars.length := by
    rw [← List.length_map (f := Char.toString), ← hvalues, OrderedMap.keys, OrderedMap.values,
      List.length_map, List.length_map]
  refine ⟨g, hg, ?_⟩
  rw [length_keys_withoutLeftRecursion, hkeys,
    List.countP_eq_length.mpr (by simpa using hrecursive), hkeys, Nat.two_mul]

/-- Two rules of a nonterminal that share a number of symbols. -/
def prefixedRules (count : Nat) : List NamedRule :=
  [("S", List.replicate (count + 1) "a"), ("S", List.replicate (count + 1) "a" ++ ["b"])]

theorem mem_prefixedRules_names {count : Nat} :
    ∀ rule ∈ prefixedRules count, ∀ name ∈ rule.2, name = "a" ∨ name = "b" := by
  simp [prefixedRules, List.mem_replicate]

theorem isPrintable_prefixedRules (count : Nat) :
    NamedRule.IsPrintable ["S"] (prefixedRules count) where
  heads_nodup := List.nodup_singleton _
  rules_nodup := by simp [prefixedRules]
  exists_char head hhead := ⟨'S', List.mem_singleton.mp hhead, by decide, by decide⟩
  bodies_ne_nil head hhead := by
    simp [List.mem_singleton.mp hhead, prefixedRules, NamedRule.bodiesOf]
  head_mem := by simp [prefixedRules]
  isBodyName rule hrule name hname := by
    rcases mem_prefixedRules_names rule hrule name hname with rfl | rfl
    · exact isBodyName_toString (c := 'a') (by decide) (by decide) (by decide)
    · exact isBodyName_toString (c := 'b') (by decide) (by decide) (by decide)

/-- A fresh nonterminal is added for each symbol that the bodies share. -/
theorem exists_ofText_prefixedRules (count : Nat) :
    ∃ g, ofText (NamedRule.text ["S"] (prefixedRules count)) = .ok g ∧
      count + 1 < g.withoutCommonPrefix.nonterminals.keys.length := by
  have hprintable := isPrintable_prefixedRules count
  have hnames : ∀ rule ∈ prefixedRules count, ∀ name ∈ rule.2, name ∈ ["S"] ∨ name ∈ ["a", "b"] :=
    fun rule hrule name hname =>
      Or.inr (List.mem_pair.mpr (mem_prefixedRules_names rule hrule name hname))
  have hadd := canAdd_of_isPrintable hprintable hnames (by decide)
    (by simp [prefixedRules, lastNumber])
  obtain ⟨g, hg, hvalues, hlists⟩ := exists_ofText_of_isPrintable hprintable (List.cons_ne_nil _ _)
    (by decide) hadd
  have hplain := isPlain_of_ofText hg
  obtain ⟨⟨n, head⟩, hentries, hhead⟩ := List.map_eq_singleton_iff.mp hvalues
  have hkeys : g.nonterminals.keys = [n] := by rw [OrderedMap.keys, hentries, List.map_singleton]
  have hn : g.nonterminals.get? n = some "S" := by
    rw [OrderedMap.get?_eq_some_iff, hentries, ← hhead]
    exact List.mem_singleton_self _
  have hnamed := hplain.toWellFormed.forall₂_bodiesOf hlists hn
  rw [NamedRule.bodiesOf_gathered hprintable.heads_nodup (List.mem_singleton_self _)] at hnamed
  have hprefixed : NamedRule.bodiesOf (prefixedRules count) "S" =
      [List.replicate (count + 1) "a", List.replicate (count + 1) "a" ++ ["b"]] := by
    simp [prefixedRules, NamedRule.bodiesOf]
  rw [hprefixed] at hnamed
  obtain ⟨first, others, hfirst, hothers, hbodies⟩ := List.forall₂_cons_right_iff.mp hnamed
  obtain ⟨second, others, hsecond, hend, rfl⟩ := List.forall₂_cons_right_iff.mp hothers
  obtain rfl := List.forall₂_nil_right_iff.mp hend
  obtain ⟨s, rest, hs, -, rfl⟩ := List.forall₂_cons_right_iff.mp hfirst
  have hunique : ∀ s', g.name? s' = some "a" → s' = s := fun s' hs' =>
    hplain.eq_of_name? _ _ _ hs' hs
  rw [eq_replicate_of_forall₂ hfirst hunique] at hbodies
  have hshared := eq_replicate_of_forall₂
    (List.forall₂_take_append _ _ _ hsecond) hunique
  rw [List.length_replicate] at hshared
  rw [← List.take_append_drop (count + 1) second, hshared] at hbodies
  exact ⟨g, hg, lt_length_keys_withoutCommonPrefix hplain hkeys hbodies⟩

end Grammar

end GrammarAnalysis

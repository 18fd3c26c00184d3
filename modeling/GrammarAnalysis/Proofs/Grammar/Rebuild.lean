import Mathlib.Data.List.Perm.Subperm
import GrammarAnalysis.Normal.Useless
import GrammarAnalysis.Proofs.Derivation.Languages
import GrammarAnalysis.Proofs.Grammar.Plain

/-!
# Grammars that are rebuilt

A pass starts from the symbols of a plain grammar, declares fresh nonterminals
and adds rules over declared symbols.  Each of these steps keeps the definition
plain and its start symbol, and says which rules are there afterwards
(`Definition.Continues`); at the end, symbols may be dropped (`Definition.retain`).
-/

namespace GrammarAnalysis

/-! ## Fresh names and numbers -/

theorem primes_injective {count other : Nat} (h : primes count = primes other) : count = other := by
  have hlength := congrArg (fun name : String => name.toList.length) h
  simpa [primes] using hlength

/-- With one candidate more than there are used names, some candidate is not used. -/
theorem freshName_not_mem (used : List String) (base : String) : freshName used base ∉ used := by
  let candidates := (List.range (used.length + 1)).map fun count => base ++ primes (count + 1)
  have hnodup : candidates.Nodup := by
    refine List.Nodup.map ?_ List.nodup_range
    intro count other h
    exact Nat.succ.inj (primes_injective ((String.append_right_inj base).mp h))
  have hsome : ∃ name, candidates.find? (fun name => !used.contains name) = some name := by
    by_contra hnone
    rw [← Option.ne_none_iff_exists', not_not, List.find?_eq_none] at hnone
    have hsub : candidates ⊆ used := fun name hname => by simpa using hnone name hname
    have hlength := (List.subperm_of_subset hnodup hsub).length_le
    simp only [candidates, List.length_map, List.length_range] at hlength
    omega
  obtain ⟨name, hname⟩ := hsome
  have hfresh := List.find?_some hname
  rw [freshName, hname]
  simpa using hfresh

/-- The next number lies above the used numbers and is not less than the first number. -/
theorem bounds_foldl_max (used : List Nat) (first : Nat) :
    first ≤ used.foldl (fun next n => max next (n + 1)) first ∧
      ∀ n ∈ used, n < used.foldl (fun next n => max next (n + 1)) first := by
  induction used generalizing first with
  | nil => simp
  | cons m used ih =>
      obtain ⟨hfirst, hused⟩ := ih (max first (m + 1))
      refine ⟨(Nat.le_max_left _ _).trans hfirst, fun n hn => ?_⟩
      rcases List.mem_cons.mp hn with rfl | hn
      · exact (Nat.le_max_right _ _).trans hfirst
      · exact hused n hn

theorem lt_nextNumber {used : List Nat} {n : Nat} (h : n ∈ used) : n < nextNumber used :=
  (bounds_foldl_max used 1).2 n h

theorem nextNumber_pos (used : List Nat) : 0 < nextNumber used :=
  (bounds_foldl_max used 1).1

/-! ## Definitions and their rules -/

theorem Grammar.mem_bodiesOf {g : Grammar} {n : NonterminalId} {body : List Symbol} :
    body ∈ g.bodiesOf n ↔ ⟨n, body⟩ ∈ g.ruleSet := by
  simp only [bodiesOf, rulesOf, ruleSet, OrderedMap.values, List.mem_map, List.mem_filter,
    decide_eq_true_eq, Set.mem_ofPred_eq]
  constructor
  · rintro ⟨⟨id, rule⟩, ⟨hentry, rfl⟩, rfl⟩
    exact ⟨_, hentry, rfl⟩
  · rintro ⟨⟨id, rule⟩, hentry, rfl⟩
    exact ⟨_, ⟨hentry, rfl⟩, rfl⟩

namespace Definition

variable {d d' d'' : Definition} {head n : NonterminalId} {body : List Symbol}
  {bodies : List (List Symbol)} {rule : Rule} {rules : Set Rule}

/-- The rules of a definition, without their numbers. -/
def ruleSet (d : Definition) : Set Rule := {rule | rule ∈ d.rules.values}

/-- Whether a rule mentions declared symbols only, and not the end of input. -/
structure Admits (d : Definition) (rule : Rule) : Prop where
  head : d.declaresSymbol (.nonterminal rule.head) = true
  body : ∀ symbol ∈ rule.body, d.declaresSymbol symbol = true ∧ symbol ≠ .terminal endOfInput

theorem Admits.extend (h : d.Admits rule) (hextends : d.Extends d') : d'.Admits rule :=
  ⟨hextends _ h.head, fun symbol hs => (h.body symbol hs).imp_left (hextends symbol)⟩

theorem Admits.concat (h : d.Admits ⟨head, body⟩)
    (hn : d.declaresSymbol (.nonterminal n) = true) : d.Admits ⟨head, body ++ [.nonterminal n]⟩ :=
  ⟨h.head, List.forall_mem_append.mpr ⟨h.body, List.forall_mem_singleton.mpr
    ⟨hn, Symbol.noConfusion⟩⟩⟩

theorem IsPlain.admits (hd : d.IsPlain) (h : rule ∈ d.ruleSet) : d.Admits rule := by
  obtain ⟨hhead, hbody⟩ := hd.rules_declared rule h
  refine ⟨hhead, fun symbol hs => ⟨hbody symbol hs, ?_⟩⟩
  rintro rfl
  exact hd.endOfInput_unused rule h hs

/-- Whether a definition is plain, declares what the other one declares, and has the
same start symbol and the given additional rules. -/
structure Continues (d d' : Definition) (rules : Set Rule) : Prop where
  isPlain : d'.IsPlain
  declares : d.Extends d'
  start_eq : d'.start = d.start
  ruleSet_eq : d'.ruleSet = d.ruleSet ∪ rules

theorem Continues.refl (hd : d.IsPlain) : d.Continues d ∅ :=
  ⟨hd, Extends.refl d, rfl, (Set.union_empty _).symm⟩

theorem Continues.trans {rules' : Set Rule} (h : d.Continues d' rules)
    (h' : d'.Continues d'' rules') : d.Continues d'' (rules ∪ rules') where
  isPlain := h'.isPlain
  declares := h.declares.trans h'.declares
  start_eq := h'.start_eq.trans h.start_eq
  ruleSet_eq := by rw [h'.ruleSet_eq, h.ruleSet_eq, Set.union_assoc]

theorem Extends.mem_keys (h : d.Extends d') {n : NonterminalId} (hn : n ∈ d.nonterminals.keys) :
    n ∈ d'.nonterminals.keys :=
  declaresSymbol_nonterminal.mp (h _ (declaresSymbol_nonterminal.mpr hn))

/-! ## Adding rules -/

theorem continues_ensureRule (hd : d.IsPlain) (h : d.Admits ⟨head, body⟩) :
    d.Continues (d.ensureRule head body).2 {⟨head, body⟩} := by
  cases hknown : d.ruleId? ⟨head, body⟩ with
  | some id =>
      have hmem : (⟨head, body⟩ : Rule) ∈ d.ruleSet := by
        by_contra hnew
        rw [ruleId?_eq_none_iff.mpr hnew] at hknown
        contradiction
      have hsame : (d.ensureRule head body).2 = d := by simp only [ensureRule, hknown]
      rw [hsame]
      refine ⟨hd, Extends.refl d, rfl, ?_⟩
      rw [Set.union_singleton, Set.insert_eq_of_mem hmem]
  | none =>
      have hnew := ruleId?_eq_none_iff.mp hknown
      have hensured : (d.ensureRule head body).2 = (d.appendRule ⟨head, body⟩).2 := by
        simp only [ensureRule, hknown]
      rw [hensured]
      refine ⟨hd.appendRule hnew h.head (fun symbol hs => (h.body symbol hs).1)
        (fun hend => (h.body _ hend).2 rfl), fun symbol hs => hs, rfl, ?_⟩
      ext rule
      rw [appendRule, ruleSet, Set.mem_ofPred_eq,
        OrderedMap.values_insert_of_not_mem hd.toWellFormed.nextRule_not_mem, List.mem_append,
        List.mem_singleton]
      rfl

theorem continues_ensureRules (hd : d.IsPlain) (h : ∀ body ∈ bodies, d.Admits ⟨head, body⟩) :
    d.Continues (d.ensureRules head bodies) (rulesFor head bodies) := by
  induction bodies generalizing d with
  | nil =>
      rw [rulesFor_nil]
      exact Continues.refl hd
  | cons body bodies ih =>
      obtain ⟨hbody, hbodies⟩ := List.forall_mem_cons.mp h
      have hfirst := continues_ensureRule hd hbody
      rw [rulesFor_cons]
      exact hfirst.trans (ih hfirst.isPlain fun body hb => (hbodies body hb).extend hfirst.declares)

/-- Adding the rules of several heads in order. -/
theorem continues_foldl_ensureRules {β : Type} (head : β → NonterminalId)
    (bodies : β → List (List Symbol)) {entries : List β} (hd : d.IsPlain)
    (h : ∀ entry ∈ entries, ∀ rule ∈ rulesFor (head entry) (bodies entry), d.Admits rule) :
    d.Continues (entries.foldl (fun d entry => d.ensureRules (head entry) (bodies entry)) d)
      {rule | ∃ entry ∈ entries, rule ∈ rulesFor (head entry) (bodies entry)} := by
  induction entries generalizing d with
  | nil =>
      have hnone : {rule : Rule | ∃ entry ∈ ([] : List β),
          rule ∈ rulesFor (head entry) (bodies entry)} = ∅ := by
        ext
        simp
      rw [hnone]
      exact Continues.refl hd
  | cons entry entries ih =>
      obtain ⟨hentry, hentries⟩ := List.forall_mem_cons.mp h
      have hfirst := continues_ensureRules hd fun body hbody => hentry _ ⟨rfl, hbody⟩
      have hall : {rule : Rule | ∃ e ∈ entry :: entries, rule ∈ rulesFor (head e) (bodies e)} =
          rulesFor (head entry) (bodies entry) ∪
            {rule | ∃ e ∈ entries, rule ∈ rulesFor (head e) (bodies e)} := by
        ext
        simp
      rw [hall]
      exact hfirst.trans (ih hfirst.isPlain fun e he rule hrule =>
        (hentries e he rule hrule).extend hfirst.declares)

theorem continues_copyRules {g : Grammar} (hd : d.IsPlain) (h : ∀ rule ∈ g.ruleSet, d.Admits rule) :
    d.Continues (d.copyRules g) g.ruleSet := by
  have hset : g.ruleSet =
      {rule | ∃ entry ∈ g.rules.values, rule ∈ rulesFor entry.head [entry.body]} := by
    ext rule
    constructor
    · exact fun hrule => ⟨rule, hrule, rfl, List.mem_singleton_self _⟩
    · rintro ⟨entry, hentry, hhead, hbody⟩
      obtain rfl : rule = entry := by
        rw [List.mem_singleton] at hbody
        cases rule
        simp_all
      exact hentry
  have hadmits : ∀ entry ∈ g.rules.values, ∀ rule ∈ rulesFor entry.head [entry.body],
      d.Admits rule := fun entry hentry rule hrule => h rule <| by
    rw [hset]
    exact ⟨entry, hentry, hrule⟩
  rw [hset]
  exact continues_foldl_ensureRules Rule.head (fun rule => [rule.body]) hd hadmits

/-! ## Fresh nonterminals -/

/-- A fresh nonterminal is declared, was not declared before, and has no rules yet. -/
theorem continues_freshNonterminal (hd : d.IsPlain) (base : String) :
    d.Continues (d.freshNonterminal base).2 ∅ ∧
      (d.freshNonterminal base).1 ∉ d.nonterminals.keys ∧
      (d.freshNonterminal base).2.declaresSymbol (.nonterminal (d.freshNonterminal base).1) =
        true := by
  refine ⟨⟨hd.addNonterminal (freshName_not_mem d.names base),
    extends_addNonterminal hd.toWellFormed _, rfl, (Set.union_empty _).symm⟩,
    hd.toWellFormed.nextNonterminal_not_mem, ?_⟩
  rw [declaresSymbol_nonterminal]
  refine OrderedMap.mem_keys_iff.mpr ⟨freshName d.names base, ?_⟩
  simp [freshNonterminal, addNonterminal]

/-- A rule that is admitted does not mention what is not declared. -/
theorem Admits.avoids (h : d.Admits rule) (hn : n ∉ d.nonterminals.keys) : rule.Avoids n := by
  refine ⟨?_, fun hbody => hn (declaresSymbol_nonterminal.mp (h.body _ hbody).1)⟩
  rintro rfl
  exact hn (declaresSymbol_nonterminal.mp h.head)

/-- Rules of a plain definition, and others that it admits, do not mention what is not declared. -/
theorem IsPlain.avoids_of_admits (hd : d.IsPlain) {others : Set Rule}
    (hothers : ∀ rule ∈ others, d.Admits rule) (hn : n ∉ d.nonterminals.keys) :
    ∀ rule ∈ d.ruleSet ∪ others, rule.Avoids n := by
  rintro rule (hrule | hrule)
  · exact (hd.admits hrule).avoids hn
  · exact (hothers rule hrule).avoids hn

/-! ## Dropping symbols -/

/-- Whether a symbol stays if those that are accepted are kept. -/
def Keeps (d : Definition) (keep : Symbol → Bool) : Symbol → Prop
  | .terminal t => t = endOfInput ∨ keep (.terminal t) = true
  | .nonterminal n => some n = d.start ∨ keep (.nonterminal n) = true

theorem values_filterKeys_sublist {κ β : Type} (keep : κ → Bool) (m : OrderedMap κ β) :
    (m.filterKeys keep).values.Sublist m.values :=
  List.filter_sublist.map Prod.snd

theorem mem_keys_filterKeys {κ β : Type} {keep : κ → Bool} {m : OrderedMap κ β} {k : κ} :
    k ∈ (m.filterKeys keep).keys ↔ k ∈ m.keys ∧ keep k = true := by
  simp only [OrderedMap.mem_keys_iff_exists_mem, OrderedMap.filterKeys, List.mem_filter,
    exists_and_right]

theorem declaresSymbol_retain {keep : Symbol → Bool} {symbol : Symbol} :
    (d.retain keep).declaresSymbol symbol = true ↔
      d.declaresSymbol symbol = true ∧ d.Keeps keep symbol := by
  cases symbol with
  | terminal t =>
      rw [declaresSymbol_terminal, declaresSymbol_terminal, retain, mem_keys_filterKeys,
        Bool.or_eq_true, decide_eq_true_eq, Keeps]
  | nonterminal n =>
      rw [declaresSymbol_nonterminal, declaresSymbol_nonterminal, retain, mem_keys_filterKeys,
        Bool.or_eq_true, decide_eq_true_eq, Keeps]

theorem mem_ruleSet_retain {keep : Symbol → Bool} :
    rule ∈ (d.retain keep).ruleSet ↔ rule ∈ d.ruleSet ∧
      (d.retain keep).declaresSymbol (.nonterminal rule.head) = true ∧
        ∀ symbol ∈ rule.body, (d.retain keep).declaresSymbol symbol = true := by
  have hbody : ∀ symbol, (d.retain keep).declaresSymbol symbol =
      declaresSymbol { d with
        terminals := d.terminals.filterKeys fun t => t = endOfInput || keep (.terminal t)
        nonterminals :=
          d.nonterminals.filterKeys fun n => some n = d.start || keep (.nonterminal n) } symbol := by
    intro symbol
    cases symbol <;> rfl
  simp only [hbody]
  simp only [ruleSet, retain, OrderedMap.values, OrderedMap.filter, Set.mem_ofPred_eq,
    List.mem_map, List.mem_filter, Bool.and_eq_true, List.all_eq_true]
  constructor
  · rintro ⟨entry, ⟨hentry, hhead, hall⟩, rfl⟩
    exact ⟨⟨entry, hentry, rfl⟩, hhead, hall⟩
  · rintro ⟨⟨entry, hentry, rfl⟩, hhead, hall⟩
    exact ⟨entry, ⟨hentry, hhead, hall⟩, rfl⟩

/-- The rules over the symbols that stay are kept. -/
theorem mem_ruleSet_retain_iff (hd : d.IsPlain) {keep : Symbol → Bool} :
    rule ∈ (d.retain keep).ruleSet ↔ rule ∈ d.ruleSet ∧ d.Keeps keep (.nonterminal rule.head) ∧
      ∀ symbol ∈ rule.body, d.Keeps keep symbol := by
  rw [mem_ruleSet_retain]
  refine and_congr_right fun hrule => ?_
  have hadmits := hd.admits hrule
  rw [declaresSymbol_retain, and_iff_right hadmits.head]
  refine and_congr_right fun _ => forall₂_congr fun symbol hs => ?_
  rw [declaresSymbol_retain, and_iff_right (hadmits.body symbol hs).1]

theorem keys_retain_subset {keep : Symbol → Bool} {id : RuleId}
    (h : id ∈ (d.retain keep).rules.keys) : id ∈ d.rules.keys :=
  (List.filter_sublist.map Prod.fst).subset h

theorem WellFormed.retain (hd : d.WellFormed) (keep : Symbol → Bool) :
    (d.retain keep).WellFormed where
  names_nodup := hd.names_nodup.sublist
    ((values_filterKeys_sublist _ _).append (values_filterKeys_sublist _ _))
  terminals_below t ht := hd.terminals_below t (mem_keys_filterKeys.mp ht).1
  nonterminals_below n hn := hd.nonterminals_below n (mem_keys_filterKeys.mp hn).1
  rules_below id hid := hd.rules_below id (keys_retain_subset hid)
  rules_nodup := hd.rules_nodup.sublist (List.filter_sublist.map Prod.snd)
  rules_declared _ hrule := (mem_ruleSet_retain.mp hrule).2

theorem IsPlain.retain (hd : d.IsPlain) (keep : Symbol → Bool) : (d.retain keep).IsPlain := by
  refine
    { hd with
      toWellFormed := hd.toWellFormed.retain keep
      start_declared := fun n hn => ?_
      endOfInput_named := ?_
      nonterminals_pos := fun n hn => hd.nonterminals_pos n (mem_keys_filterKeys.mp hn).1
      rules_pos := fun id hid => hd.rules_pos id (keys_retain_subset hid)
      endOfInput_unused := fun rule h => hd.endOfInput_unused rule (mem_ruleSet_retain.mp h).1 }
  · refine mem_keys_filterKeys.mpr ⟨hd.start_declared n hn, ?_⟩
    have hstart : d.start = some n := hn
    simp [hstart]
  · rw [Definition.retain, OrderedMap.get?_filterKeys, if_pos (by simp)]
    exact hd.endOfInput_named

/-! ## The start symbol -/

theorem IsPlain.setStart (hd : d.IsPlain) (hn : d.declaresSymbol (.nonterminal n) = true) :
    (d.setStart n).IsPlain :=
  { hd with
    start_declared := fun m hm => by
      rw [← Option.some.inj hm]
      exact declaresSymbol_nonterminal.mp hn }

end Definition

/-! ## Rebuilding -/

namespace Grammar

variable {g : Grammar} {n : NonterminalId}

theorem WellFormed.toDefinition (hg : g.WellFormed) : g.toDefinition.WellFormed where
  names_nodup := hg.names_nodup
  terminals_below _ ht := lt_nextNumber ht
  nonterminals_below _ hn := lt_nextNumber hn
  rules_below _ hid := absurd hid List.not_mem_nil
  rules_nodup := List.nodup_nil
  rules_declared _ hrule := absurd hrule List.not_mem_nil

theorem IsPlain.toDefinition (hg : g.IsPlain) : g.toDefinition.IsPlain where
  toWellFormed := hg.toWellFormed.toDefinition
  start_declared n hn := by
    rw [← Option.some.inj hn]
    exact hg.start_declared
  endOfInput_named := hg.endOfInput_named
  nextTerminal_pos := nextNumber_pos _
  nextNonterminal_pos := nextNumber_pos _
  nextRule_pos := Nat.one_pos
  nonterminals_pos := hg.nonterminals_pos
  rules_pos _ hid := absurd hid List.not_mem_nil
  endOfInput_unused _ hrule := absurd hrule List.not_mem_nil

theorem ruleSet_toDefinition (g : Grammar) : g.toDefinition.ruleSet = ∅ :=
  Set.eq_empty_of_forall_notMem fun _ hrule => List.not_mem_nil hrule

theorem declaresSymbol_toDefinition {symbol : Symbol} :
    g.toDefinition.declaresSymbol symbol = true ↔ g.Declares symbol := by
  cases symbol with
  | terminal t => exact Definition.declaresSymbol_terminal
  | nonterminal n => exact Definition.declaresSymbol_nonterminal

/-- The symbols of a plain grammar admit its rules. -/
theorem IsPlain.admits (hg : g.IsPlain) : ∀ rule ∈ g.ruleSet, g.toDefinition.Admits rule := by
  intro rule hrule
  refine ⟨declaresSymbol_toDefinition.mpr (hg.heads_declared rule hrule), fun symbol hs =>
    ⟨declaresSymbol_toDefinition.mpr (hg.bodies_declared rule hrule symbol hs), ?_⟩⟩
  rintro rfl
  exact hg.endOfInput_unused rule hrule hs

/-- A grammar that is rebuilt by a plain definition is plain and has its rules. -/
theorem isPlain_rebuild (build : Definition → Definition) (hd : (build g.toDefinition).IsPlain)
    (hstart : (build g.toDefinition).start = some n) :
    (g.rebuild build).IsPlain ∧ (g.rebuild build).start = n ∧
      (g.rebuild build).ruleSet = (build g.toDefinition).ruleSet := by
  have hfinish : g.rebuild build = (build g.toDefinition).finish n := by
    rw [rebuild, hstart]
    rfl
  have hgrammar : (build g.toDefinition).toGrammar = .ok (g.rebuild build) := by
    rw [Definition.toGrammar, hstart, hfinish]
    rfl
  refine ⟨hd.toGrammar hgrammar, ?_, ?_⟩ <;> rw [hfinish] <;> rfl

/-- A grammar that is rebuilt by adding the rules of several heads has these rules. -/
theorem isPlain_rebuild_ensureRules {β : Type} (head : β → NonterminalId)
    (bodies : β → List (List Symbol)) {entries : List β} (hg : g.IsPlain)
    (h : ∀ entry ∈ entries, ∀ rule ∈ rulesFor (head entry) (bodies entry),
      g.toDefinition.Admits rule) :
    (g.rebuild fun d => entries.foldl (fun d entry => d.ensureRules (head entry) (bodies entry))
        d).IsPlain ∧
      (g.rebuild fun d => entries.foldl (fun d entry => d.ensureRules (head entry) (bodies entry))
        d).start = g.start ∧
      (g.rebuild fun d => entries.foldl (fun d entry => d.ensureRules (head entry) (bodies entry))
        d).ruleSet = {rule | ∃ entry ∈ entries, rule ∈ rulesFor (head entry) (bodies entry)} := by
  have hadded := Definition.continues_foldl_ensureRules head bodies hg.toDefinition h
  obtain ⟨hplain, hstart, hrules⟩ := isPlain_rebuild
    (fun d => entries.foldl (fun d entry => d.ensureRules (head entry) (bodies entry)) d)
    hadded.isPlain hadded.start_eq
  refine ⟨hplain, hstart, hrules.trans ?_⟩
  rw [hadded.ruleSet_eq, ruleSet_toDefinition, Set.empty_union]

end Grammar

end GrammarAnalysis

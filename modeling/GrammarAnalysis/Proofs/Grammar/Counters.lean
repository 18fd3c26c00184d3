import Mathlib.Logic.Relation
import GrammarAnalysis.Proofs.Grammar.Plain

/-!
# Numbers are handed out one after the other

Reading a text takes only three kinds of steps: declaring a terminal, declaring
a nonterminal and adding a rule (`Definition.ReadStep`).  Each of them uses the
next number, leaves no gap and does not use the last number, so the counters say
how many symbols and rules there are, and there are never more than can be numbered
(`Definition.IsNumbered`).
-/

namespace GrammarAnalysis

/-! ## Maps with consecutive keys -/

/-- Whether the keys count up from the first number to the one before the next number. -/
def OrderedMap.CountsUp {β : Type} (first next : Nat) (m : OrderedMap Nat β) : Prop :=
  m.keys = List.range' first m.size ∧ next = first + m.size

theorem OrderedMap.CountsUp.insert {β : Type} {first next : Nat} {m : OrderedMap Nat β}
    (h : m.CountsUp first next) (v : β) : (m.insert next v).CountsUp first (next + 1) := by
  obtain ⟨hkeys, rfl⟩ := h
  have hfresh : first + m.size ∉ m.keys := by
    rw [hkeys, List.mem_range'_1]
    omega
  have hsize : (m.insert (first + m.size) v).size = m.size + 1 := by
    rw [size, entries_insert_of_not_mem hfresh, List.length_append, List.length_singleton, size]
  refine ⟨?_, by rw [hsize, Nat.add_assoc]⟩
  rw [keys_insert_of_not_mem hfresh, hsize, List.range'_concat, hkeys, Nat.one_mul]

/-- Maps with consecutive keys are equal if their values are. -/
theorem OrderedMap.eq_of_values_eq {β : Type} {first : Nat} {m m' : OrderedMap Nat β}
    (h : m.keys = List.range' first m.size) (h' : m'.keys = List.range' first m'.size)
    (hvalues : m.values = m'.values) : m = m' := by
  have hsize : m.size = m'.size := by
    simpa [values, size] using congrArg List.length hvalues
  have hkeys : m.keys = m'.keys := by rw [h, h', hsize]
  have hentries : m.entries = m'.entries := by
    rw [← List.zip_unzip m.entries, ← List.zip_unzip m'.entries, List.unzip_eq_map,
      List.unzip_eq_map]
    exact congrArg₂ List.zip hkeys hvalues
  cases m
  cases m'
  simpa using hentries

theorem OrderedMap.CountsUp.lt {β : Type} {first next : Nat} {m : OrderedMap Nat β}
    (h : m.CountsUp first next) {k : Nat} (hk : k ∈ m.keys) : k < next := by
  rw [h.1, List.mem_range'_1] at hk
  rw [h.2]
  exact hk.2

/-- Whether all numbers of a grammar lie below the last one. -/
structure Grammar.InRange (g : Grammar) : Prop where
  terminals : ∀ t ∈ g.terminals.keys, t < lastNumber
  nonterminals : ∀ n ∈ g.nonterminals.keys, n < lastNumber
  rules : ∀ id ∈ g.rules.keys, id < lastNumber

instance (g : Grammar) : Decidable g.InRange :=
  decidable_of_iff
    ((∀ t ∈ g.terminals.keys, t < lastNumber) ∧ (∀ n ∈ g.nonterminals.keys, n < lastNumber) ∧
      ∀ id ∈ g.rules.keys, id < lastNumber)
    ⟨fun h => ⟨h.1, h.2.1, h.2.2⟩, fun h => ⟨h.1, h.2, h.3⟩⟩

namespace Definition

variable {d d' : Definition}

/-! ## The steps of reading -/

/-- Whether a definition is made from another one by declaring a symbol or adding a rule. -/
inductive ReadStep (d d' : Definition) : Prop
  | terminal {name : String} {t : TerminalId} (declared : d.declareTerminal name = .ok (t, d'))
  | nonterminal {name : String} {n : NonterminalId}
      (declared : d.declareNonterminal name = .ok (n, d'))
  | rule {head : NonterminalId} {body : List Symbol} {id : RuleId}
      (added : d.addRule head body = .ok (id, d'))

open Relation (ReflTransGen)

theorem readSteps_declareHeads {heads : List String} (h : d.declareHeads heads = .ok d') :
    ReflTransGen ReadStep d d' := by
  induction heads generalizing d with
  | nil =>
      simp only [declareHeads, Except.ok.injEq] at h
      rw [h]
  | cons head heads ih =>
      rw [declareHeads] at h
      split at h
      · exact ih h
      · obtain ⟨⟨n, d₁⟩, hdecl, h⟩ := exists_of_bind_eq_ok h
        exact (ih h).head (.nonterminal hdecl)

theorem readSteps_resolve {name : String} {symbol : Symbol}
    (h : d.resolve name = .ok (symbol, d')) : ReflTransGen ReadStep d d' := by
  rw [resolve] at h
  split at h
  · simp only [Except.ok.injEq, Prod.mk.injEq] at h
    rw [h.2]
  · obtain ⟨⟨t, d₁⟩, hdecl, h⟩ := exists_of_bind_eq_ok h
    simp only [pure, Except.pure, Except.ok.injEq, Prod.mk.injEq] at h
    obtain ⟨-, rfl⟩ := h
    exact .single (.terminal hdecl)

theorem readSteps_resolveAll {names : List String} {symbols : List Symbol}
    (h : d.resolveAll names = .ok (symbols, d')) : ReflTransGen ReadStep d d' := by
  induction names generalizing d symbols with
  | nil =>
      simp only [resolveAll, Except.ok.injEq, Prod.mk.injEq] at h
      rw [h.2]
  | cons name names ih =>
      rw [resolveAll] at h
      obtain ⟨⟨symbol, d₁⟩, hname, h⟩ := exists_of_bind_eq_ok h
      obtain ⟨⟨rest, d₂⟩, hrest, h⟩ := exists_of_bind_eq_ok h
      simp only [pure, Except.pure, Except.ok.injEq, Prod.mk.injEq] at h
      obtain ⟨-, rfl⟩ := h
      exact (readSteps_resolve hname).trans (ih hrest)

theorem readSteps_addNamedRule {head : String} {body : List String}
    (h : d.addNamedRule head body = .ok d') : ReflTransGen ReadStep d d' := by
  rw [addNamedRule] at h
  split at h
  · obtain ⟨⟨symbols, d₁⟩, hbody, h⟩ := exists_of_bind_eq_ok h
    obtain ⟨⟨id, d₂⟩, hrule, h⟩ := exists_of_bind_eq_ok h
    simp only [pure, Except.pure, Except.ok.injEq] at h
    subst h
    exact (readSteps_resolveAll hbody).tail (.rule hrule)
  · simp only [Except.ok.injEq] at h
    rw [h]

theorem readSteps_foldlM {rules : List (String × List String)}
    (h : rules.foldlM (fun d rule => d.addNamedRule rule.1 rule.2) d = .ok d') :
    ReflTransGen ReadStep d d' := by
  refine foldlM_induction (P := ReflTransGen ReadStep d) ?_ .refl h
  intro head body d₁ d₂ hsteps hrule
  exact hsteps.trans (readSteps_addNamedRule hrule)

/-! ## Numbers -/

theorem fits_iff : d.fits = true ↔
    d.nextTerminal ≤ lastNumber ∧ d.nextNonterminal ≤ lastNumber ∧ d.nextRule ≤ lastNumber := by
  simp [fits, and_assoc]

/-- Whether no number has been left out, and the last one has not been used. -/
structure IsNumbered (d : Definition) : Prop where
  terminals : d.terminals.CountsUp 0 d.nextTerminal
  nonterminals : d.nonterminals.CountsUp 1 d.nextNonterminal
  rules : d.rules.CountsUp 1 d.nextRule
  fits : d.fits = true

theorem IsNumbered.empty : Definition.empty.IsNumbered :=
  ⟨⟨by decide, by decide⟩, ⟨by decide, by decide⟩, ⟨by decide, by decide⟩, by decide⟩

namespace IsNumbered

theorem nextTerminal_eq (hd : d.IsNumbered) : d.nextTerminal = d.terminals.values.length := by
  rw [hd.terminals.2, Nat.zero_add, OrderedMap.size, OrderedMap.values, List.length_map]

theorem nextNonterminal_eq (hd : d.IsNumbered) :
    d.nextNonterminal = d.nonterminals.values.length + 1 := by
  rw [hd.nonterminals.2, Nat.add_comm, OrderedMap.size, OrderedMap.values, List.length_map]

theorem nextRule_eq (hd : d.IsNumbered) : d.nextRule = d.rules.values.length + 1 := by
  rw [hd.rules.2, Nat.add_comm, OrderedMap.size, OrderedMap.values, List.length_map]

end IsNumbered

/-- The numbers of a grammar that is defined without a gap lie below the last one. -/
theorem IsNumbered.inRange (hd : d.IsNumbered) (start : NonterminalId) :
    (d.finish start).InRange := by
  obtain ⟨hterminals, hnonterminals, hrules⟩ := fits_iff.mp hd.fits
  exact ⟨fun _ ht => Nat.lt_of_lt_of_le (hd.terminals.lt ht) hterminals,
    fun _ hn => Nat.lt_of_lt_of_le (hd.nonterminals.lt hn) hnonterminals,
    fun _ hid => Nat.lt_of_lt_of_le (hd.rules.lt hid) hrules⟩

theorem IsNumbered.readStep (hd : d.IsNumbered) (h : ReadStep d d') : d'.IsNumbered := by
  obtain ⟨hterminals, hnonterminals, hrules⟩ := fits_iff.mp hd.fits
  cases h with
  | terminal declared =>
      obtain ⟨-, hleft, -, rfl⟩ := declareTerminal_eq_ok declared
      exact { hd with
        terminals := hd.terminals.insert _
        fits := fits_iff.mpr ⟨hleft, hnonterminals, hrules⟩ }
  | nonterminal declared =>
      obtain ⟨-, hleft, -, rfl⟩ := declareNonterminal_eq_ok declared
      exact { hd with
        nonterminals := hd.nonterminals.insert _
        fits := fits_iff.mpr ⟨hterminals, hleft, hrules⟩ }
  | rule added =>
      obtain ⟨-, hleft, -, rfl⟩ := addRule_eq_ok added
      exact { hd with
        rules := hd.rules.insert _
        fits := fits_iff.mpr ⟨hterminals, hnonterminals, hleft⟩ }

theorem IsNumbered.readSteps (hd : d.IsNumbered) (h : ReflTransGen ReadStep d d') :
    d'.IsNumbered := by
  induction h with
  | refl => exact hd
  | tail _ hstep ih => exact ih.readStep hstep

end Definition

end GrammarAnalysis

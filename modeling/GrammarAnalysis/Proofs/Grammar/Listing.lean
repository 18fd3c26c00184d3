import Mathlib.Data.List.Forall2
import Mathlib.Data.List.Nodup
import GrammarAnalysis.Proofs.Grammar.Counters

/-!
# What a text defines, by names

Reading a text numbers its symbols and rules.  Distinct symbols have distinct
names, so nothing is lost when a grammar is described by names instead: its
rules, in order, are those of the productions that were read
(`Grammar.Lists`), and its terminals are the other names that occur in bodies.
Conversely, reading succeeds if no rule is repeated, no body has the name of
the end of input, and there are numbers for all symbols and rules (`CanAdd`); which
nonterminals there are depends on the heads alone, each counted where it occurs first.
-/

namespace GrammarAnalysis

/-- A rule given by the names of its symbols. -/
abbrev NamedRule := String × List String

/-- Whether the symbols of the rule have these names. -/
def Rule.HasNames (name? : Symbol → Option String) (rule : Rule) (named : NamedRule) : Prop :=
  name? (.nonterminal rule.head) = some named.1 ∧
    List.Forall₂ (fun symbol name => name? symbol = some name) rule.body named.2

/-- The names of the terminals, when these names have been read in bodies. -/
def terminalNames (heads read : List String) : List String :=
  endOfInputName :: (read.filter (· ∉ heads)).eraseDups

/-- The rules of a line, by names. -/
def Production.rules (production : Production) : List NamedRule :=
  production.bodies.map fun body => (production.headName, body)

/-- Whether these rules can be added, one after the other, where these heads have been
declared. -/
structure CanAdd (heads : List String) (rules : List NamedRule) : Prop where
  endOfInput_unused : ∀ rule ∈ rules, endOfInputName ∉ rule.2
  rules_nodup : rules.Nodup
  terminals_fit : (terminalNames heads (rules.flatMap Prod.snd)).length ≤ lastNumber
  rules_fit : rules.length < lastNumber

/-- Whether the grammar is the one with these rules, whose start symbol is the first
nonterminal and whose terminals are the names in the bodies that are no heads. -/
structure Grammar.Lists (g : Grammar) (rules : List NamedRule) : Prop
    extends CanAdd g.nonterminals.values rules where
  rules_named : List.Forall₂ (Rule.HasNames g.name?) g.rules.values rules
  terminals_eq : g.terminals.values = terminalNames g.nonterminals.values (rules.flatMap Prod.snd)
  start_first : g.nonterminals.keys.head? = some g.start

/-! ## Names -/

theorem OrderedMap.eq_of_get?_eq {κ β : Type} [DecidableEq κ] {m : OrderedMap κ β} {k k' : κ}
    {v : β} (hnodup : m.values.Nodup) (h : m.get? k = some v) (h' : m.get? k' = some v) :
    k = k' := by
  rw [get?_eq_some_iff] at h h'
  exact congrArg Prod.fst (List.inj_on_of_nodup_map hnodup h h' rfl)

theorem Rule.HasNames.imp {name? name?' : Symbol → Option String} {rule : Rule}
    {named : NamedRule} (h : rule.HasNames name? named)
    (hnames : ∀ symbol name, name? symbol = some name → name?' symbol = some name) :
    rule.HasNames name?' named :=
  ⟨hnames _ _ h.1, h.2.imp hnames⟩

/-- If distinct symbols have distinct names, then distinct rules do. -/
theorem Rule.biUnique_hasNames {name? : Symbol → Option String}
    (hinj : ∀ symbol symbol' name, name? symbol = some name → name? symbol' = some name →
      symbol = symbol') : Relator.BiUnique (Rule.HasNames name?) := by
  have hsymbols : Relator.BiUnique fun symbol name => name? symbol = some name :=
    ⟨fun symbol symbol' name => hinj symbol symbol' name,
      fun symbol name name' h h' => Option.some.inj (h.symm.trans h')⟩
  refine ⟨?_, ?_⟩
  · rintro ⟨head, body⟩ ⟨head', body'⟩ named ⟨hhead, hbody⟩ ⟨hhead', hbody'⟩
    obtain rfl := Symbol.nonterminal.inj (hsymbols.1 hhead hhead')
    obtain rfl : body = body' := hsymbols.1.forall₂ hbody hbody'
    rfl
  · rintro rule ⟨head, body⟩ ⟨head', body'⟩ ⟨hhead, hbody⟩ ⟨hhead', hbody'⟩
    obtain rfl : head = head' := hsymbols.2 hhead hhead'
    obtain rfl : body = body' := hsymbols.2.forall₂ hbody hbody'
    rfl

theorem mem_terminalNames {heads read : List String} {name : String} :
    name ∈ terminalNames heads read ↔ name = endOfInputName ∨ name ∈ read ∧ name ∉ heads := by
  simp [terminalNames]

/-- A name that is read adds a terminal unless it is a head or known already. -/
theorem terminalNames_append_singleton (heads read : List String) (name : String) :
    terminalNames heads (read ++ [name]) =
      if name ∈ read ∨ name ∈ heads then terminalNames heads read
      else terminalNames heads read ++ [name] := by
  by_cases hhead : name ∈ heads
  · simp [terminalNames, hhead]
  · by_cases hread : name ∈ read
    · simp [terminalNames, hhead, hread, List.eraseDups_append, List.removeAll]
    · simp [terminalNames, hhead, hread, List.eraseDups_append, List.removeAll,
        List.eraseDups_cons]

/-- Names that have been read add no terminals. -/
theorem terminalNames_append_of_subset (heads : List String) {read more : List String}
    (h : ∀ name ∈ more, name ∈ read) :
    terminalNames heads (read ++ more) = terminalNames heads read := by
  induction more generalizing read with
  | nil => rw [List.append_nil]
  | cons name more ih =>
      rw [List.forall_mem_cons] at h
      rw [← List.singleton_append, ← List.append_assoc,
        ih fun other hother => List.mem_append_left _ (h.2 other hother),
        terminalNames_append_singleton, if_pos (Or.inl h.1)]

/-- Names that are read later are listed later. -/
theorem terminalNames_isPrefix (heads read more : List String) :
    terminalNames heads read <+: terminalNames heads (read ++ more) := by
  rw [terminalNames, terminalNames, List.filter_append, List.eraseDups_append]
  exact List.prefix_append _ _

theorem terminalNames_fit_of_append {heads read more : List String}
    (h : (terminalNames heads (read ++ more)).length ≤ lastNumber) :
    (terminalNames heads read).length ≤ lastNumber :=
  Nat.le_trans (terminalNames_isPrefix heads read more).length_le h

/-- Rules that come first can be added if all can. -/
theorem CanAdd.of_append {heads : List String} {rules more : List NamedRule}
    (h : CanAdd heads (rules ++ more)) : CanAdd heads rules where
  endOfInput_unused rule hrule := h.endOfInput_unused rule (List.mem_append_left _ hrule)
  rules_nodup := (List.nodup_append.mp h.rules_nodup).1
  terminals_fit := by
    have hfit := h.terminals_fit
    rw [List.flatMap_append] at hfit
    exact terminalNames_fit_of_append hfit
  rules_fit := by
    have hfit := h.rules_fit
    rw [List.length_append] at hfit
    omega

namespace Definition

variable {d d' : Definition}

theorem WellFormed.eq_of_name? (hd : d.WellFormed) (symbol symbol' : Symbol) (name : String)
    (h : d.name? symbol = some name) (h' : d.name? symbol' = some name) : symbol = symbol' := by
  obtain ⟨hterminals, hnonterminals, hdisjoint⟩ := List.nodup_append.mp hd.names_nodup
  cases symbol with
  | terminal t =>
      cases symbol' with
      | terminal t' => rw [OrderedMap.eq_of_get?_eq hterminals h h']
      | nonterminal n =>
          exact absurd rfl (hdisjoint name (OrderedMap.mem_values_of_get? h) name
            (OrderedMap.mem_values_of_get? h'))
  | nonterminal n =>
      cases symbol' with
      | terminal t =>
          exact absurd rfl (hdisjoint name (OrderedMap.mem_values_of_get? h') name
            (OrderedMap.mem_values_of_get? h))
      | nonterminal n' => rw [OrderedMap.eq_of_get?_eq hnonterminals h h']

theorem mem_names_iff {name : String} : name ∈ d.names ↔ ∃ symbol, d.name? symbol = some name := by
  rw [names, List.mem_append, OrderedMap.mem_values_iff, OrderedMap.mem_values_iff]
  constructor
  · rintro (⟨t, ht⟩ | ⟨n, hn⟩)
    · exact ⟨.terminal t, ht⟩
    · exact ⟨.nonterminal n, hn⟩
  · rintro ⟨t | n, h⟩
    · exact Or.inl ⟨t, h⟩
    · exact Or.inr ⟨n, h⟩

theorem name?_of_symbolNamed? {name : String} {symbol : Symbol}
    (h : d.symbolNamed? name = some symbol) : d.name? symbol = some name := by
  rw [symbolNamed?, GrammarAnalysis.symbolNamed?] at h
  split at h
  · next entry hentry =>
    rw [Option.some.injEq] at h
    subst h
    have hname := List.find?_some hentry
    rw [decide_eq_true_eq] at hname
    rw [← hname]
    exact OrderedMap.get?_eq_some_iff.mpr (List.mem_of_find?_eq_some hentry)
  · obtain ⟨t, ht, rfl⟩ := Option.map_eq_some_iff.mp h
    rw [terminalNamed?, Option.map_eq_some_iff] at ht
    obtain ⟨entry, hentry, rfl⟩ := ht
    have hname := List.find?_some hentry
    rw [Bool.and_eq_true, decide_eq_true_eq, decide_eq_true_eq] at hname
    rw [← hname.2]
    exact OrderedMap.get?_eq_some_iff.mpr (List.mem_of_find?_eq_some hentry)

/-- Every declared symbol but the end of input is found by its name. -/
theorem WellFormed.symbolNamed?_of_name? (hd : d.WellFormed) {name : String} {symbol : Symbol}
    (h : d.name? symbol = some name) (hne : symbol ≠ .terminal endOfInput) :
    d.symbolNamed? name = some symbol := by
  cases hfound : d.symbolNamed? name with
  | some found => rw [hd.eq_of_name? found symbol name (name?_of_symbolNamed? hfound) h]
  | none =>
      exfalso
      rw [symbolNamed?, GrammarAnalysis.symbolNamed?] at hfound
      split at hfound
      · contradiction
      · next hnonterminals =>
        rw [Option.map_eq_none_iff, terminalNamed?, Option.map_eq_none_iff] at hfound
        rw [List.find?_eq_none] at hnonterminals hfound
        cases symbol with
        | terminal t =>
            exact hfound (t, name) (OrderedMap.get?_eq_some_iff.mp h) (by simpa using hne)
        | nonterminal n =>
            exact hnonterminals (n, name) (OrderedMap.get?_eq_some_iff.mp h) (by simp)

theorem WellFormed.exists_symbolNamed? (hd : d.WellFormed) {head : String}
    (hhead : head ∈ d.nonterminals.values) :
    ∃ n, d.name? (.nonterminal n) = some head ∧
      d.symbolNamed? head = some (.nonterminal n) := by
  obtain ⟨n, hn⟩ := OrderedMap.mem_values_iff.mp hhead
  exact ⟨n, hn, hd.symbolNamed?_of_name? hn (by simp)⟩

/-! ## Reading the symbols of a body -/

/-- Whether reading the names of a body leads from one definition to the other: it only
declares terminals, and each symbol keeps its name. -/
structure ReadsNames (d : Definition) (names : List String) (d' : Definition) : Prop where
  nonterminals_eq : d'.nonterminals = d.nonterminals
  rules_eq : d'.rules = d.rules
  start_eq : d'.start = d.start
  name?_eq : ∀ symbol name, d.name? symbol = some name → d'.name? symbol = some name
  endOfInput_not_mem : endOfInputName ∉ names
  terminals_eq : ∀ read, d.terminals.values = terminalNames d.nonterminals.values read →
    d'.terminals.values = terminalNames d.nonterminals.values (read ++ names)

theorem ReadsNames.nil (d : Definition) : d.ReadsNames [] d :=
  ⟨rfl, rfl, rfl, fun _ _ h => h, List.not_mem_nil, fun read h => by rwa [List.append_nil]⟩

theorem ReadsNames.append {d'' : Definition} {names names' : List String}
    (h : d.ReadsNames names d') (h' : d'.ReadsNames names' d'') :
    d.ReadsNames (names ++ names') d'' where
  nonterminals_eq := h'.nonterminals_eq.trans h.nonterminals_eq
  rules_eq := h'.rules_eq.trans h.rules_eq
  start_eq := h'.start_eq.trans h.start_eq
  name?_eq := fun symbol name hname => h'.name?_eq symbol name (h.name?_eq symbol name hname)
  endOfInput_not_mem := by
    rw [List.mem_append, not_or]
    exact ⟨h.endOfInput_not_mem, h'.endOfInput_not_mem⟩
  terminals_eq := by
    intro read hread
    have hnames := h'.terminals_eq (read ++ names)
    rw [h.nonterminals_eq, List.append_assoc] at hnames
    exact hnames (h.terminals_eq read hread)

theorem IsPlain.readsNames_resolve {name : String} {symbol : Symbol} (hd : d.IsPlain)
    (h : d.resolve name = .ok (symbol, d')) :
    d.ReadsNames [name] d' ∧ d'.name? symbol = some name := by
  rw [Definition.resolve] at h
  split at h
  · next found hfound =>
    simp only [Except.ok.injEq, Prod.mk.injEq] at h
    obtain ⟨rfl, rfl⟩ := h
    have hname := name?_of_symbolNamed? hfound
    have hne : endOfInputName ≠ name := by
      rintro rfl
      apply (symbolNamed?_eq_some hfound).2
      exact hd.eq_of_name? _ _ _ hname hd.endOfInput_named
    refine ⟨⟨rfl, rfl, rfl, fun _ _ h => h, ?_, ?_⟩, hname⟩
    · rwa [List.mem_singleton]
    intro read hread
    have hknown := mem_names_iff.mpr ⟨found, hname⟩
    rw [names, List.mem_append, hread, mem_terminalNames] at hknown
    rw [terminalNames_append_singleton, if_pos, hread]
    tauto
  · obtain ⟨⟨t, d₁⟩, hdecl, h⟩ := exists_of_bind_eq_ok h
    simp only [pure, Except.pure, Except.ok.injEq, Prod.mk.injEq] at h
    obtain ⟨rfl, rfl⟩ := h
    obtain ⟨hnew, -, rfl, rfl⟩ := declareTerminal_eq_ok hdecl
    have hfresh := hd.toWellFormed.nextTerminal_not_mem
    refine ⟨⟨rfl, rfl, rfl, ?_, ?_, ?_⟩, by simp [name?]⟩
    · intro s name' hname
      cases s with
      | nonterminal n => exact hname
      | terminal t =>
          have hne : t ≠ d.nextTerminal := by
            rintro rfl
            exact hfresh (OrderedMap.mem_keys_of_get? hname)
          simpa [name?, hne] using hname
    · rw [List.mem_singleton]
      rintro rfl
      exact hnew (mem_names_iff.mpr ⟨.terminal endOfInput, hd.endOfInput_named⟩)
    · intro read hread
      rw [names, List.mem_append, hread, mem_terminalNames] at hnew
      rw [OrderedMap.values_insert_of_not_mem hfresh, terminalNames_append_singleton, if_neg, hread]
      tauto

theorem IsPlain.readsNames_resolveAll {names : List String} {symbols : List Symbol}
    (hd : d.IsPlain) (h : d.resolveAll names = .ok (symbols, d')) :
    d.ReadsNames names d' ∧
      List.Forall₂ (fun symbol name => d'.name? symbol = some name) symbols names := by
  induction names generalizing d symbols with
  | nil =>
      simp only [Definition.resolveAll, Except.ok.injEq, Prod.mk.injEq] at h
      obtain ⟨rfl, rfl⟩ := h
      exact ⟨.nil d, .nil⟩
  | cons name names ih =>
      rw [Definition.resolveAll] at h
      obtain ⟨⟨symbol, d₁⟩, hname, h⟩ := exists_of_bind_eq_ok h
      obtain ⟨⟨rest, d₂⟩, hrest, h⟩ := exists_of_bind_eq_ok h
      simp only [pure, Except.pure, Except.ok.injEq, Prod.mk.injEq] at h
      obtain ⟨rfl, rfl⟩ := h
      obtain ⟨hreads, hsymbol⟩ := hd.readsNames_resolve hname
      obtain ⟨hreads', hsymbols⟩ := ih (hd.resolve hname).1 hrest
      exact ⟨hreads.append hreads', .cons (hreads'.name?_eq _ _ hsymbol) hsymbols⟩

/-- What is not found by its name is not declared, unless it is the end of input. -/
theorem IsPlain.not_mem_names_of_symbolNamed? {name : String} (hd : d.IsPlain)
    (hne : name ≠ endOfInputName) (hnone : d.symbolNamed? name = none) : name ∉ d.names := by
  rw [mem_names_iff]
  rintro ⟨symbol, hname⟩
  by_cases hsymbol : symbol = .terminal endOfInput
  · subst hsymbol
    exact hne (Option.some.inj (hname.symm.trans hd.endOfInput_named))
  · rw [hd.symbolNamed?_of_name? hname hsymbol] at hnone
    contradiction

theorem resolve_of_symbolNamed?_eq_none {name : String} (hnone : d.symbolNamed? name = none)
    (hnew : name ∉ d.names) :
    d.resolve name =
      (drawing d.nextTerminal (d.addTerminal name)).map (Prod.map Symbol.terminal id) := by
  have hdeclared : d.declareTerminal name = drawing d.nextTerminal (d.addTerminal name) :=
    if_neg (by simpa [declares] using hnew)
  rw [Definition.resolve, hnone, hdeclared]
  cases drawing d.nextTerminal (d.addTerminal name) <;> rfl

section Numbers

variable {name : String} {names read : List String}

/-- A name is read if its terminal is known or there is a number for it. -/
theorem IsPlain.exists_resolve (hd : d.IsPlain) (hnumbered : d.IsNumbered)
    (hread : d.terminals.values = terminalNames d.nonterminals.values read)
    (hne : name ≠ endOfInputName)
    (hfit : (terminalNames d.nonterminals.values (read ++ [name])).length ≤ lastNumber) :
    ∃ symbol d', d.resolve name = .ok (symbol, d') := by
  cases hfound : d.symbolNamed? name with
  | some found => exact ⟨found, d, by rw [Definition.resolve, hfound]⟩
  | none =>
      have hnew := hd.not_mem_names_of_symbolNamed? hne hfound
      have hleft : d.nextTerminal < lastNumber := by
        rw [names, List.mem_append, hread, mem_terminalNames] at hnew
        rw [terminalNames_append_singleton, if_neg (by tauto), List.length_append, ← hread,
          ← hnumbered.nextTerminal_eq] at hfit
        exact hfit
      refine ⟨.terminal d.nextTerminal, (d.addTerminal name).2, ?_⟩
      rw [resolve_of_symbolNamed?_eq_none hfound hnew, drawing, if_pos hleft]
      rfl

/-- A name is refused if there is no number for its terminal. -/
theorem IsNumbered.resolve_of_full (hnumbered : d.IsNumbered)
    (hread : d.terminals.values = terminalNames d.nonterminals.values read)
    (hne : name ≠ endOfInputName)
    (hfull : lastNumber < (terminalNames d.nonterminals.values (read ++ [name])).length) :
    d.resolve name = .error .numbersExhausted := by
  have hcount : (terminalNames d.nonterminals.values read).length = d.nextTerminal := by
    rw [hnumbered.nextTerminal_eq, hread]
  have hfits := (fits_iff.mp hnumbered.fits).1
  have hnew : ¬ (name ∈ read ∨ name ∈ d.nonterminals.values) := by
    intro hknown
    rw [terminalNames_append_singleton, if_pos hknown] at hfull
    omega
  have hunnamed : name ∉ d.names := by
    rw [names, List.mem_append, hread, mem_terminalNames]
    tauto
  cases hfound : d.symbolNamed? name with
  | some found => exact absurd (mem_names_iff.mpr ⟨found, name?_of_symbolNamed? hfound⟩) hunnamed
  | none =>
      have hlast : ¬ d.nextTerminal < lastNumber := by
        rw [terminalNames_append_singleton, if_neg hnew, List.length_append,
          List.length_singleton] at hfull
        omega
      rw [resolve_of_symbolNamed?_eq_none hfound hunnamed, drawing, if_neg hlast]
      rfl

theorem resolveAll_append (d : Definition) (names more : List String) :
    d.resolveAll (names ++ more) = do
      let (symbols, d) ← d.resolveAll names
      let (others, d) ← d.resolveAll more
      return (symbols ++ others, d) := by
  induction names generalizing d with
  | nil =>
      simp only [List.nil_append, resolveAll, bind, Except.bind, pure, Except.pure]
      cases d.resolveAll more <;> rfl
  | cons name names ih =>
      rw [List.cons_append, resolveAll, resolveAll]
      cases hname : d.resolve name with
      | error e => rfl
      | ok result =>
          simp only [bind, Except.bind, ih]
          cases result.2.resolveAll names with
          | error e => rfl
          | ok result' =>
              simp only [pure, Except.pure]
              cases result'.2.resolveAll more <;> rfl

/-- Names are read if there are numbers for their terminals. -/
theorem IsPlain.exists_resolveAll (hd : d.IsPlain) (hnumbered : d.IsNumbered)
    (hread : d.terminals.values = terminalNames d.nonterminals.values read)
    (hne : endOfInputName ∉ names)
    (hfit : (terminalNames d.nonterminals.values (read ++ names)).length ≤ lastNumber) :
    ∃ symbols d', d.resolveAll names = .ok (symbols, d') := by
  induction names generalizing d read with
  | nil => exact ⟨[], d, rfl⟩
  | cons name names ih =>
      rw [List.mem_cons, not_or] at hne
      rw [← List.singleton_append, ← List.append_assoc] at hfit
      obtain ⟨symbol, d₁, hname⟩ := hd.exists_resolve hnumbered hread (Ne.symm hne.1)
        (terminalNames_fit_of_append hfit)
      have hreads := (hd.readsNames_resolve hname).1
      have hread₁ := hreads.terminals_eq read hread
      rw [← hreads.nonterminals_eq] at hread₁ hfit
      obtain ⟨symbols, d₂, hrest⟩ := ih (hd.resolve hname).1
        (hnumbered.readSteps (readSteps_resolve hname)) hread₁ hne.2 hfit
      refine ⟨symbol :: symbols, d₂, ?_⟩
      rw [Definition.resolveAll, hname]
      simp only [bind, Except.bind, hrest]
      rfl

/-- Names are refused if there are not enough numbers for their terminals. -/
theorem IsPlain.resolveAll_of_full (hd : d.IsPlain) (hnumbered : d.IsNumbered)
    (hread : d.terminals.values = terminalNames d.nonterminals.values read)
    (hne : endOfInputName ∉ names)
    (hfull : lastNumber < (terminalNames d.nonterminals.values (read ++ names)).length) :
    d.resolveAll names = .error .numbersExhausted := by
  induction names generalizing d read with
  | nil =>
      have hfits := (fits_iff.mp hnumbered.fits).1
      rw [List.append_nil, ← hread, ← hnumbered.nextTerminal_eq] at hfull
      omega
  | cons name names ih =>
      rw [List.mem_cons, not_or] at hne
      rw [← List.singleton_append, ← List.append_assoc] at hfull
      rw [Definition.resolveAll]
      by_cases hfit : (terminalNames d.nonterminals.values (read ++ [name])).length ≤ lastNumber
      · obtain ⟨symbol, d₁, hname⟩ := hd.exists_resolve hnumbered hread (Ne.symm hne.1) hfit
        have hreads := (hd.readsNames_resolve hname).1
        have hread₁ := hreads.terminals_eq read hread
        rw [← hreads.nonterminals_eq] at hread₁ hfull
        have hrest := ih (hd.resolve hname).1 (hnumbered.readSteps (readSteps_resolve hname))
          hread₁ hne.2 hfull
        simp only [hname, bind, Except.bind, hrest]
      · rw [hnumbered.resolve_of_full hread (Ne.symm hne.1) (Nat.lt_of_not_le hfit)]
        rfl

end Numbers

/-! ## Adding rules -/

/-- Whether these rules have been added, and their terminals declared. -/
structure Lists (d : Definition) (rules : List NamedRule) : Prop where
  rules_named : List.Forall₂ (Rule.HasNames d.name?) d.rules.values rules
  endOfInput_unused : ∀ rule ∈ rules, endOfInputName ∉ rule.2
  terminals_eq : d.terminals.values = terminalNames d.nonterminals.values (rules.flatMap Prod.snd)

theorem IsPlain.lists_addNamedRule {rules : List NamedRule} {head : String} {body : List String}
    (hd : d.IsPlain) (hlists : d.Lists rules) (hhead : head ∈ d.nonterminals.values)
    (h : d.addNamedRule head body = .ok d') :
    d'.Lists (rules ++ [(head, body)]) ∧ d'.nonterminals = d.nonterminals ∧
      d'.start = d.start := by
  obtain ⟨n, hn, hfound⟩ := hd.exists_symbolNamed? hhead
  simp only [Definition.addNamedRule, hfound] at h
  obtain ⟨⟨symbols, d₁⟩, hbody, h⟩ := exists_of_bind_eq_ok h
  obtain ⟨⟨id, d₂⟩, hrule, h⟩ := exists_of_bind_eq_ok h
  simp only [pure, Except.pure, Except.ok.injEq] at h
  subst h
  obtain ⟨hreads, hsymbols⟩ := hd.readsNames_resolveAll hbody
  have hfresh := (hd.resolveAll hbody).1.toWellFormed.nextRule_not_mem
  obtain ⟨-, -, -, rfl⟩ := addRule_eq_ok hrule
  refine ⟨⟨?_, ?_, ?_⟩, hreads.nonterminals_eq, hreads.start_eq⟩
  · rw [OrderedMap.values_insert_of_not_mem hfresh, hreads.rules_eq]
    have hold := hlists.rules_named.imp fun rule named hnamed => hnamed.imp hreads.name?_eq
    exact List.rel_append hold (.cons ⟨hreads.name?_eq (.nonterminal n) head hn, hsymbols⟩ .nil)
  · intro rule hadded
    rcases List.mem_append.mp hadded with hold | hnew
    · exact hlists.endOfInput_unused rule hold
    · rw [List.mem_singleton.mp hnew]
      exact hreads.endOfInput_not_mem
  · rw [List.flatMap_append, List.flatMap_singleton, hreads.nonterminals_eq]
    exact hreads.terminals_eq _ hlists.terminals_eq

theorem Lists.length_eq {rules : List NamedRule} (hlists : d.Lists rules) :
    d.rules.values.length = rules.length :=
  hlists.rules_named.length_eq

/-- Adding a rule by names is adding the rule of these names, when its body can be read. -/
theorem IsPlain.exists_addNamedRule_eq {rules : List NamedRule} {head : String}
    {body : List String} (hd : d.IsPlain) (hnumbered : d.IsNumbered) (hlists : d.Lists rules)
    (hhead : head ∈ d.nonterminals.values) (hne : endOfInputName ∉ body)
    (hfit : (terminalNames d.nonterminals.values
      (rules.flatMap Prod.snd ++ body)).length ≤ lastNumber) :
    ∃ (n : NonterminalId) (symbols : List Symbol) (d₁ : Definition),
      d.addNamedRule head body = (d₁.addRule n symbols).map Prod.snd ∧
      Rule.HasNames d₁.name? ⟨n, symbols⟩ (head, body) ∧
      ((⟨n, symbols⟩ : Rule) ∈ d₁.rules.values ↔ (head, body) ∈ rules) ∧
      d₁.nextRule = rules.length + 1 := by
  obtain ⟨n, hn, hfound⟩ := hd.exists_symbolNamed? hhead
  obtain ⟨symbols, d₁, hbody⟩ := hd.exists_resolveAll hnumbered hlists.terminals_eq hne hfit
  obtain ⟨hreads, hsymbols⟩ := hd.readsNames_resolveAll hbody
  have hnames : Rule.HasNames d₁.name? ⟨n, symbols⟩ (head, body) :=
    ⟨hreads.name?_eq (.nonterminal n) head hn, hsymbols⟩
  have hunique := Rule.biUnique_hasNames (hd.resolveAll hbody).1.toWellFormed.eq_of_name?
  have hold := hlists.rules_named.imp fun rule named hnamed => hnamed.imp hreads.name?_eq
  have hnumbered₁ := hnumbered.readSteps (readSteps_resolveAll hbody)
  refine ⟨n, symbols, d₁, ?_, hnames, ?_, ?_⟩
  · simp only [Definition.addNamedRule, hfound, hbody, bind, Except.bind]
    cases d₁.addRule n symbols <;> rfl
  · rw [hreads.rules_eq]
    exact List.rel_mem hunique hnames hold
  · rw [hnumbered₁.nextRule_eq, hreads.rules_eq, hlists.length_eq]

theorem IsPlain.exists_addNamedRule {rules : List NamedRule} {head : String} {body : List String}
    (hd : d.IsPlain) (hnumbered : d.IsNumbered) (hlists : d.Lists rules)
    (hhead : head ∈ d.nonterminals.values)
    (hadd : CanAdd d.nonterminals.values (rules ++ [(head, body)])) :
    ∃ d', d.addNamedRule head body = .ok d' := by
  have hne := hadd.endOfInput_unused (head, body) (by simp)
  have hfit := hadd.terminals_fit
  rw [List.flatMap_append, List.flatMap_singleton] at hfit
  have hnew : (head, body) ∉ rules := fun hold =>
    (List.nodup_append.mp hadd.rules_nodup).2.2 _ hold _ (List.mem_singleton_self _) rfl
  obtain ⟨n, symbols, d₁, heq, -, hmem, hnext⟩ :=
    hd.exists_addNamedRule_eq hnumbered hlists hhead hne hfit
  have hadded := ruleId?_eq_none_iff.mpr (mt hmem.mp hnew)
  have hleft : d₁.nextRule < lastNumber := by
    rw [hnext]
    simpa using hadd.rules_fit
  refine ⟨(d₁.appendRule ⟨n, symbols⟩).2, ?_⟩
  rw [heq, Definition.addRule, hadded, drawing, if_pos hleft]
  rfl

theorem IsPlain.lists_foldlM {rules added : List NamedRule} (hd : d.IsPlain)
    (hlists : d.Lists rules) (hheads : ∀ rule ∈ added, rule.1 ∈ d.nonterminals.values)
    (h : added.foldlM (fun d rule => d.addNamedRule rule.1 rule.2) d = .ok d') :
    d'.Lists (rules ++ added) ∧ d'.nonterminals = d.nonterminals ∧ d'.start = d.start := by
  induction added generalizing d rules with
  | nil =>
      simp only [List.foldlM_nil, pure, Except.pure, Except.ok.injEq] at h
      subst h
      exact ⟨by rwa [List.append_nil], rfl, rfl⟩
  | cons rule added ih =>
      rw [List.foldlM_cons] at h
      obtain ⟨d₁, hrule, h⟩ := exists_of_bind_eq_ok h
      rw [List.forall_mem_cons] at hheads
      obtain ⟨hlists₁, hnonterminals, hstart⟩ := hd.lists_addNamedRule hlists hheads.1 hrule
      rw [← hnonterminals] at hheads
      obtain ⟨hlists', hnonterminals', hstart'⟩ := ih (hd.addNamedRule hrule) hlists₁ hheads.2 h
      rw [List.append_assoc, List.singleton_append] at hlists'
      exact ⟨hlists', hnonterminals'.trans hnonterminals, hstart'.trans hstart⟩

theorem IsPlain.exists_foldlM {rules added : List NamedRule} (hd : d.IsPlain)
    (hnumbered : d.IsNumbered) (hlists : d.Lists rules)
    (hheads : ∀ rule ∈ added, rule.1 ∈ d.nonterminals.values)
    (hadd : CanAdd d.nonterminals.values (rules ++ added)) :
    ∃ d', added.foldlM (fun d rule => d.addNamedRule rule.1 rule.2) d = .ok d' := by
  induction added generalizing d rules with
  | nil => exact ⟨d, rfl⟩
  | cons rule added ih =>
      rw [List.forall_mem_cons] at hheads
      rw [← List.singleton_append, ← List.append_assoc] at hadd
      obtain ⟨d₁, hrule⟩ := hd.exists_addNamedRule hnumbered hlists hheads.1 hadd.of_append
      obtain ⟨hlists₁, hnonterminals, -⟩ := hd.lists_addNamedRule hlists hheads.1 hrule
      rw [← hnonterminals] at hheads hadd
      obtain ⟨d', h⟩ := ih (hd.addNamedRule hrule)
        (hnumbered.readSteps (readSteps_addNamedRule hrule)) hlists₁ hheads.2 hadd
      refine ⟨d', ?_⟩
      rw [List.foldlM_cons, hrule]
      exact h

/-- Rules that have been added can be added. -/
theorem IsPlain.canAdd {rules : List NamedRule} (hd : d.IsPlain) (hnumbered : d.IsNumbered)
    (hlists : d.Lists rules) : CanAdd d.nonterminals.values rules := by
  have hunique := Rule.biUnique_hasNames hd.toWellFormed.eq_of_name?
  obtain ⟨hterminals, -, hrules⟩ := fits_iff.mp hnumbered.fits
  refine ⟨hlists.endOfInput_unused,
    (List.rel_nodup hunique hlists.rules_named).mp hd.rules_nodup, ?_, ?_⟩
  · rwa [← hlists.terminals_eq, ← hnumbered.nextTerminal_eq]
  · rwa [hnumbered.nextRule_eq, hlists.length_eq] at hrules

end Definition

/-! ## Declaring heads -/

/-- The heads that are not declared, each where it occurs first. -/
def newHeads (declared heads : List String) : List String :=
  (heads.filter (· ∉ declared)).eraseDups

theorem newHeads_cons_of_mem {declared : List String} {head : String} (h : head ∈ declared)
    (heads : List String) : newHeads declared (head :: heads) = newHeads declared heads := by
  simp [newHeads, h]

theorem newHeads_cons_of_not_mem {declared : List String} {head : String} (h : head ∉ declared)
    (heads : List String) :
    newHeads declared (head :: heads) = head :: newHeads (declared ++ [head]) heads := by
  simp [newHeads, h, List.eraseDups_cons, List.filter_filter, beq_eq_decide, Bool.and_comm]

theorem mem_newHeads_nil {heads : List String} {head : String} :
    head ∈ newHeads [] heads ↔ head ∈ heads := by
  simp [newHeads]

namespace Definition

variable {d d' : Definition}

/-- Declaring heads is the same as declaring the new ones among them. -/
theorem IsPlain.declareHeads_eq_ok {heads : List String} (hd : d.IsPlain)
    (h : d.declareHeads heads = .ok d') :
    d'.nonterminals.values = d.nonterminals.values ++ newHeads d.nonterminals.values heads ∧
      d.declareHeads (newHeads d.nonterminals.values heads) = .ok d' ∧
      d'.terminals = d.terminals ∧ d'.rules = d.rules ∧ d'.start = d.start := by
  induction heads generalizing d with
  | nil =>
      simp only [Definition.declareHeads, Except.ok.injEq] at h
      subst h
      simp [newHeads, Definition.declareHeads]
  | cons head heads ih =>
      rw [Definition.declareHeads] at h
      split at h
      · next hknown =>
        rw [List.contains_eq_mem, decide_eq_true_eq] at hknown
        rw [newHeads_cons_of_mem hknown]
        exact ih hd h
      · next hnew =>
        rw [List.contains_eq_mem, decide_eq_true_eq] at hnew
        obtain ⟨⟨n, d₁⟩, hdecl, h⟩ := exists_of_bind_eq_ok h
        obtain ⟨hvalues, hheads, hterminals, hrules, hstart⟩ := ih (hd.declareNonterminal hdecl) h
        have hfresh := hd.toWellFormed.nextNonterminal_not_mem
        obtain ⟨-, -, -, rfl⟩ := declareNonterminal_eq_ok hdecl
        rw [OrderedMap.values_insert_of_not_mem hfresh] at hvalues hheads
        rw [newHeads_cons_of_not_mem hnew]
        refine ⟨?_, ?_, hterminals, hrules, hstart⟩
        · rw [hvalues, List.append_assoc, List.singleton_append]
        · rw [Definition.declareHeads, if_neg (by simpa using hnew), hdecl]
          exact hheads

end Definition

/-! ## The grammar of productions -/

theorem Definition.addProductions_eq_foldlM (d : Definition) (productions : List Production) :
    d.addProductions productions =
      (productions.flatMap Production.rules).foldlM
        (fun d rule => d.addNamedRule rule.1 rule.2) d :=
  rfl

theorem Production.mem_flatMap_rules {productions : List Production} {rule : NamedRule} :
    rule ∈ productions.flatMap Production.rules ↔
      ∃ production ∈ productions, production.headName = rule.1 ∧ rule.2 ∈ production.bodies := by
  obtain ⟨head, body⟩ := rule
  simp [rules, and_comm]

/-- When the heads have been declared, the rules of the productions can be added. -/
theorem Definition.lists_nil_of_declareHeads {d : Definition} {productions : List Production}
    (h : Definition.empty.declareHeads (productions.map Production.headName) = .ok d) :
    d.Lists [] ∧ d.start = none ∧
      d.nonterminals.values = newHeads [] (productions.map Production.headName) ∧
      ∀ rule ∈ productions.flatMap Production.rules, rule.1 ∈ d.nonterminals.values := by
  obtain ⟨hvalues, -, hterminals, hrules, hstart⟩ := IsPlain.empty.declareHeads_eq_ok h
  refine ⟨⟨?_, by simp, ?_⟩, hstart, hvalues, ?_⟩
  · rw [hrules]
    exact .nil
  · rw [hterminals]
    rfl
  · intro rule hrule
    obtain ⟨production, hproduction, hhead, -⟩ := Production.mem_flatMap_rules.mp hrule
    rw [hvalues, List.mem_append, ← hhead]
    exact Or.inr (mem_newHeads_nil.mpr (List.mem_map_of_mem hproduction))

namespace Grammar

variable {g : Grammar} {productions : List Production}

/-- The grammar of productions has their rules; its nonterminals are their heads, and the
same definition arises when every head is declared once. -/
theorem lists_of_ofProductions (h : ofProductions productions = .ok g) :
    g.Lists (productions.flatMap Production.rules) ∧
      g.nonterminals.values = newHeads [] (productions.map Production.headName) ∧
      ∃ d, Definition.empty.declareHeads g.nonterminals.values = .ok d ∧
        d.nonterminals = g.nonterminals := by
  rw [ofProductions] at h
  split at h
  · contradiction
  · obtain ⟨d₁, hheads, h⟩ := exists_of_bind_eq_ok h
    obtain ⟨d₂, hrules, h⟩ := exists_of_bind_eq_ok h
    obtain ⟨-, hheads', -⟩ := Definition.IsPlain.empty.declareHeads_eq_ok hheads
    obtain ⟨hlists₁, hstart, hvalues, hknown⟩ := Definition.lists_nil_of_declareHeads hheads
    have hd₁ := Definition.IsPlain.empty.declareHeads hheads
    obtain ⟨hlists₂, hnonterminals, hstart'⟩ := hd₁.lists_foldlM hlists₁ hknown hrules
    rw [Definition.toGrammar, hstart', hstart] at h
    split at h
    · next start hfirst =>
      simp only [Except.ok.injEq] at h
      subst h
      have hnumbered₂ := (Definition.IsNumbered.empty.readSteps
        (Definition.readSteps_declareHeads hheads)).readSteps (Definition.readSteps_foldlM hrules)
      refine ⟨⟨(hd₁.addProductions hrules).canAdd hnumbered₂ hlists₂, ?_, hlists₂.terminals_eq,
        hfirst⟩, ?_, d₁, ?_, hnonterminals.symm⟩
      · exact hlists₂.rules_named.imp fun rule named hnamed =>
          hnamed.imp fun symbol name hname => by cases symbol <;> exact hname
      · exact (congrArg OrderedMap.values hnonterminals).trans hvalues
      · rw [Definition.finish, hnonterminals, hvalues]
        exact hheads'
    · contradiction

theorem exists_ofProductions {d : Definition} (hne : productions ≠ [])
    (hheads : Definition.empty.declareHeads (productions.map Production.headName) = .ok d)
    (hadd : CanAdd d.nonterminals.values (productions.flatMap Production.rules)) :
    ∃ g, ofProductions productions = .ok g ∧ g.nonterminals = d.nonterminals := by
  have hd := Definition.IsPlain.empty.declareHeads hheads
  obtain ⟨hlists, hstart, hvalues, hknown⟩ := Definition.lists_nil_of_declareHeads hheads
  have hnumbered := Definition.IsNumbered.empty.readSteps
    (Definition.readSteps_declareHeads hheads)
  obtain ⟨d', hrules⟩ := hd.exists_foldlM hnumbered hlists hknown hadd
  obtain ⟨-, hnonterminals, hstart'⟩ := hd.lists_foldlM hlists hknown hrules
  obtain ⟨start, hfirst⟩ : ∃ start, d'.nonterminals.keys.head? = some start := by
    obtain ⟨production, hproduction⟩ := List.exists_mem_of_ne_nil _ hne
    have hhead := mem_newHeads_nil.mpr (List.mem_map_of_mem (f := Production.headName) hproduction)
    rw [← hvalues, ← hnonterminals, OrderedMap.mem_values_iff] at hhead
    obtain ⟨n, hn⟩ := hhead
    exact ⟨_, List.head?_eq_some_head (List.ne_nil_of_mem (OrderedMap.mem_keys_of_get? hn))⟩
  refine ⟨d'.finish start, ?_, hnonterminals⟩
  rw [ofProductions, if_neg (by simpa using hne), hheads]
  calc
    (d.addProductions productions >>= Definition.toGrammar) = d'.toGrammar := by
      rw [Definition.addProductions_eq_foldlM, hrules]
      rfl
    _ = .ok (d'.finish start) := by
      rw [Definition.toGrammar, hstart', hstart, Option.none_or, hfirst]

end Grammar

end GrammarAnalysis

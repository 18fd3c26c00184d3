import Mathlib.Data.List.Induction
import GrammarAnalysis.Proofs.Grammar.Printing

/-!
# Rules that cannot be added

The rules of a text are added one by one, up to the first one that is refused
(`Definition.Refuses`).  Its body is read first, name by name: the name of the end of
input is refused, and so is a new name when the numbers of terminals have run out.  Then
a rule is refused that has been added before, or for which there is no number left.
-/

namespace GrammarAnalysis

/-- The rule as it is quoted in an error message. -/
def NamedRule.quote (rule : NamedRule) : String :=
  rule.1 ++ " ->" ++ String.join (rule.2.map (" " ++ ·))

namespace Definition

variable {d : Definition}

/-! ## One rule -/

theorem IsPlain.resolve_endOfInputName (hd : d.IsPlain) :
    d.resolve endOfInputName = .error (.duplicateSymbol endOfInputName) := by
  have hnone : d.symbolNamed? endOfInputName = none := by
    rw [Option.eq_none_iff_forall_not_mem]
    intro symbol hfound
    apply (symbolNamed?_eq_some hfound).2
    exact hd.eq_of_name? _ _ _ (name?_of_symbolNamed? hfound) hd.endOfInput_named
  have hdeclared : d.declares endOfInputName = true := by
    rw [declares, List.contains_eq_mem, decide_eq_true_eq, mem_names_iff]
    exact ⟨.terminal endOfInput, hd.endOfInput_named⟩
  rw [Definition.resolve, hnone, Definition.declareTerminal, if_pos hdeclared]
  rfl

section Numbers

variable {rules : List NamedRule} {head : String} {body before after : List String}

/-- The names are read up to the one of the end of input. -/
theorem IsPlain.resolveAll_endOfInputName {read : List String} (hd : d.IsPlain)
    (hnumbered : d.IsNumbered)
    (hread : d.terminals.values = terminalNames d.nonterminals.values read)
    (hbefore : endOfInputName ∉ before)
    (hfit : (terminalNames d.nonterminals.values (read ++ before)).length ≤ lastNumber) :
    d.resolveAll (before ++ endOfInputName :: after) =
      .error (.duplicateSymbol endOfInputName) := by
  obtain ⟨symbols, d', hsymbols⟩ := hd.exists_resolveAll hnumbered hread hbefore hfit
  have hrest : d'.resolveAll (endOfInputName :: after) =
      .error (.duplicateSymbol endOfInputName) := by
    rw [Definition.resolveAll, (hd.resolveAll hsymbols).1.resolve_endOfInputName]
    rfl
  rw [resolveAll_append, hsymbols]
  simp only [bind, Except.bind, hrest]

/-- The names are read up to the first one that has no number. -/
theorem IsPlain.resolveAll_append_of_full {read : List String} (hd : d.IsPlain)
    (hnumbered : d.IsNumbered)
    (hread : d.terminals.values = terminalNames d.nonterminals.values read)
    (hbefore : endOfInputName ∉ before)
    (hfull : lastNumber < (terminalNames d.nonterminals.values (read ++ before)).length) :
    d.resolveAll (before ++ after) = .error .numbersExhausted := by
  rw [resolveAll_append, hd.resolveAll_of_full hnumbered hread hbefore hfull]
  rfl

theorem IsPlain.addNamedRule_of_resolveAll {error : GrammarError} (hd : d.IsPlain)
    (hhead : head ∈ d.nonterminals.values) (h : d.resolveAll body = .error error) :
    d.addNamedRule head body = .error error := by
  obtain ⟨n, -, hfound⟩ := hd.exists_symbolNamed? hhead
  simp only [Definition.addNamedRule, hfound, h, bind, Except.bind]

theorem quote?_of_hasNames {rule : Rule} {named : NamedRule} (h : rule.HasNames d.name? named) :
    d.quote? rule = some named.quote := by
  obtain ⟨hhead, hbody⟩ := h
  have hnames : rule.body.mapM d.name? = some named.2 := mapM_eq_some_iff.mpr hbody
  have hleft : d.nonterminals.get? rule.head = some named.1 := hhead
  rw [quote?, hleft, hnames]
  rfl

/-- A rule that has been added before is quoted. -/
theorem IsPlain.addNamedRule_of_mem (hd : d.IsPlain) (hnumbered : d.IsNumbered)
    (hlists : d.Lists rules) (hhead : head ∈ d.nonterminals.values)
    (hmem : (head, body) ∈ rules) :
    d.addNamedRule head body = .error (.duplicateRule (NamedRule.quote (head, body))) := by
  have hne := hlists.endOfInput_unused _ hmem
  have hknown : ∀ name ∈ body, name ∈ rules.flatMap Prod.snd := fun name hname =>
    List.mem_flatMap.mpr ⟨_, hmem, hname⟩
  have hfit := (hd.canAdd hnumbered hlists).terminals_fit
  rw [← terminalNames_append_of_subset _ hknown] at hfit
  obtain ⟨n, symbols, d₁, heq, hnames, hadded, -⟩ :=
    hd.exists_addNamedRule_eq hnumbered hlists hhead hne hfit
  obtain ⟨id, hid⟩ : ∃ id, d₁.ruleId? ⟨n, symbols⟩ = some id := by
    rw [← Option.ne_none_iff_exists', ne_eq, ruleId?_eq_none_iff, not_not]
    exact hadded.mpr hmem
  simp only [heq, Definition.addRule, hid, quote?_of_hasNames hnames, Except.map]

/-- A new rule is refused when the last number is the next one. -/
theorem IsPlain.addNamedRule_of_full (hd : d.IsPlain) (hnumbered : d.IsNumbered)
    (hlists : d.Lists rules) (hhead : head ∈ d.nonterminals.values)
    (hnew : (head, body) ∉ rules) (hne : endOfInputName ∉ body)
    (hfit : (terminalNames d.nonterminals.values
      (rules.flatMap Prod.snd ++ body)).length ≤ lastNumber)
    (hfull : lastNumber ≤ rules.length + 1) :
    d.addNamedRule head body = .error .numbersExhausted := by
  obtain ⟨n, symbols, d₁, heq, -, hmem, hnext⟩ :=
    hd.exists_addNamedRule_eq hnumbered hlists hhead hne hfit
  have hadded := ruleId?_eq_none_iff.mpr (mt hmem.mp hnew)
  have hlast : ¬ d₁.nextRule < lastNumber := by omega
  rw [heq, Definition.addRule, hadded, drawing, if_neg hlast]
  rfl

end Numbers

/-! ## The first rule that is refused -/

/-- Why a rule cannot be added when these rules have been and these are the heads: its body has
the name of the end of input, or a new name when there is no number for it; or it repeats one of
the rules, or there is no number for it. -/
inductive Refuses (heads : List String) (added : List NamedRule) (rule : NamedRule) :
    GrammarError → Prop
  | endOfInput {before after : List String} (body_eq : rule.2 = before ++ endOfInputName :: after)
      (unused : endOfInputName ∉ before)
      (fit : (terminalNames heads (added.flatMap Prod.snd ++ before)).length ≤ lastNumber) :
      Refuses heads added rule (.duplicateSymbol endOfInputName)
  | terminals {before after : List String} (body_eq : rule.2 = before ++ after)
      (unused : endOfInputName ∉ before)
      (full : lastNumber < (terminalNames heads (added.flatMap Prod.snd ++ before)).length) :
      Refuses heads added rule .numbersExhausted
  | repeated (mem : rule ∈ added) : Refuses heads added rule (.duplicateRule rule.quote)
  | rules (new : rule ∉ added) (unused : endOfInputName ∉ rule.2)
      (fit : (terminalNames heads (added.flatMap Prod.snd ++ rule.2)).length ≤ lastNumber)
      (full : lastNumber ≤ added.length + 1) : Refuses heads added rule .numbersExhausted

/-- A rule can be added to others, or there is a reason why it cannot. -/
theorem canAdd_or_refuses_singleton {heads : List String} {rules : List NamedRule}
    (hadded : CanAdd heads rules) (rule : NamedRule) :
    CanAdd heads (rules ++ [rule]) ∨ ∃ error, Refuses heads rules rule error := by
  by_cases hold : rule ∈ rules
  · exact Or.inr ⟨_, .repeated hold⟩
  by_cases hend : endOfInputName ∈ rule.2
  · obtain ⟨before, after, hbody, hbefore⟩ := List.eq_append_cons_of_mem hend
    by_cases hfit : (terminalNames heads (rules.flatMap Prod.snd ++ before)).length ≤ lastNumber
    · exact Or.inr ⟨_, .endOfInput hbody hbefore hfit⟩
    · exact Or.inr ⟨_, .terminals hbody hbefore (Nat.lt_of_not_le hfit)⟩
  by_cases hfit : (terminalNames heads (rules.flatMap Prod.snd ++ rule.2)).length ≤ lastNumber
  · by_cases hfull : lastNumber ≤ rules.length + 1
    · exact Or.inr ⟨_, .rules hold hend hfit hfull⟩
    refine Or.inl ⟨?_, ?_, ?_, ?_⟩
    · rw [List.forall_mem_append, List.forall_mem_singleton]
      exact ⟨hadded.endOfInput_unused, hend⟩
    · rw [List.nodup_append_comm, List.singleton_append, List.nodup_cons]
      exact ⟨hold, hadded.rules_nodup⟩
    · rwa [List.flatMap_append, List.flatMap_singleton]
    · rw [List.length_append, List.length_singleton]
      omega
  · exact Or.inr ⟨_, .terminals (List.append_nil _).symm hend (Nat.lt_of_not_le hfit)⟩

/-- All rules can be added, or there is a first one that cannot. -/
theorem canAdd_or_refuses (heads : List String) (rules : List NamedRule) :
    CanAdd heads rules ∨ ∃ before rule after error, rules = before ++ rule :: after ∧
      CanAdd heads before ∧ Refuses heads before rule error := by
  induction rules using List.reverseRecOn with
  | nil => exact Or.inl ⟨by simp, List.nodup_nil, by simp [terminalNames, lastNumber], by decide⟩
  | append_singleton rules rule ih =>
      rcases ih with hadded | ⟨before, first, after, error, rfl, hadded, hfirst⟩
      · rcases canAdd_or_refuses_singleton hadded rule with hrule | ⟨error, hrule⟩
        · exact Or.inl hrule
        · exact Or.inr ⟨rules, rule, [], error, rfl, hadded, hrule⟩
      · refine Or.inr ⟨before, first, after ++ [rule], error, ?_, hadded, hfirst⟩
        rw [List.append_assoc, List.cons_append]

/-- Rules are added up to the first one that is refused. -/
theorem IsPlain.foldlM_of_refuses {before after : List NamedRule} {rule : NamedRule}
    {error : GrammarError} (hd : d.IsPlain) (hnumbered : d.IsNumbered) (hlists : d.Lists [])
    (hheads : ∀ rule' ∈ before ++ rule :: after, rule'.1 ∈ d.nonterminals.values)
    (hadded : CanAdd d.nonterminals.values before)
    (h : Refuses d.nonterminals.values before rule error) :
    (before ++ rule :: after).foldlM (fun d rule => d.addNamedRule rule.1 rule.2) d =
      .error error := by
  rw [List.forall_mem_append, List.forall_mem_cons] at hheads
  obtain ⟨hbefore, hrule, -⟩ := hheads
  obtain ⟨d', hfold⟩ := hd.exists_foldlM hnumbered hlists hbefore hadded
  obtain ⟨hlists', hnonterminals, -⟩ := hd.lists_foldlM hlists hbefore hfold
  rw [← hnonterminals] at hrule h
  have hd' := hd.foldlM hfold
  have hnumbered' := hnumbered.readSteps (readSteps_foldlM hfold)
  have hrefused : d'.addNamedRule rule.1 rule.2 = .error error := by
    cases h with
    | endOfInput body_eq unused fit =>
        refine hd'.addNamedRule_of_resolveAll hrule ?_
        rw [body_eq]
        exact hd'.resolveAll_endOfInputName hnumbered' hlists'.terminals_eq unused fit
    | terminals body_eq unused full =>
        refine hd'.addNamedRule_of_resolveAll hrule ?_
        rw [body_eq]
        exact hd'.resolveAll_append_of_full hnumbered' hlists'.terminals_eq unused full
    | repeated mem => exact hd'.addNamedRule_of_mem hnumbered' hlists' hrule mem
    | rules new unused fit full =>
        exact hd'.addNamedRule_of_full hnumbered' hlists' hrule new unused fit full
  rw [List.foldlM_append, hfold]
  simp only [bind, Except.bind, List.foldlM_cons, hrefused]

end Definition

end GrammarAnalysis

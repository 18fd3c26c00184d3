import GrammarAnalysis.Proofs.Grammar.Listing
import GrammarAnalysis.Proofs.Grammar.Rebuild

/-!
# The grammar that productions define

The terminals of a grammar that is read are numbered from 0, and its nonterminals and
rules from 1, without a gap.  Together with the rules by names this determines the
grammar.
-/

namespace GrammarAnalysis

/-- Whether the grammar has the rules of the productions, in order and numbered from 1; its
nonterminals are the heads, and its terminals the end of input and the other names in bodies, each
where it occurs first; and its start symbol is the first head. -/
structure Grammar.IsDefinedBy (g : Grammar) (productions : List Production) : Prop where
  rules_keys : g.rules.keys = List.range' 1 g.rules.size
  rules_named :
    List.Forall₂ (Rule.HasNames g.name?) g.rules.values (productions.flatMap Production.rules)
  nonterminals_keys : g.nonterminals.keys = List.range' 1 g.nonterminals.size
  nonterminals_eq : g.nonterminals.values = (productions.map Production.headName).eraseDups
  terminals_keys : g.terminals.keys = List.range' 0 g.terminals.size
  terminals_eq : g.terminals.values = terminalNames (productions.map Production.headName)
    ((productions.flatMap Production.rules).flatMap Prod.snd)
  start_named : g.name? (.nonterminal g.start) = productions.head?.map Production.headName

namespace Grammar

variable {g g' : Grammar} {productions : List Production}

/-- The definition of productions leaves no number out. -/
theorem exists_isNumbered_of_ofProductions (h : ofProductions productions = .ok g) :
    ∃ d start, d.IsNumbered ∧ g = Definition.finish d start := by
  rw [ofProductions] at h
  split at h
  · contradiction
  · obtain ⟨d₁, hheads, h⟩ := exists_of_bind_eq_ok h
    obtain ⟨d₂, hrules, h⟩ := exists_of_bind_eq_ok h
    have hsteps := (Definition.readSteps_declareHeads hheads).trans
      (Definition.readSteps_foldlM hrules)
    rw [Definition.toGrammar] at h
    split at h
    · next start _ =>
      exact ⟨d₂, start, Definition.IsNumbered.empty.readSteps hsteps, (Except.ok.inj h).symm⟩
    · contradiction

/-- The numbers of a grammar that is read from text lie below the last one. -/
theorem inRange_of_ofText {text : String} (h : ofText text = .ok g) : g.InRange := by
  obtain ⟨productions, -, h⟩ := exists_of_bind_eq_ok h
  obtain ⟨d, start, hd, rfl⟩ := exists_isNumbered_of_ofProductions h
  exact hd.inRange start

theorem keys_of_ofProductions (h : ofProductions productions = .ok g) :
    g.rules.keys = List.range' 1 g.rules.size ∧
      g.nonterminals.keys = List.range' 1 g.nonterminals.size ∧
      g.terminals.keys = List.range' 0 g.terminals.size := by
  obtain ⟨d, start, hd, rfl⟩ := exists_isNumbered_of_ofProductions h
  exact ⟨hd.rules.1, hd.nonterminals.1, hd.terminals.1⟩

theorem newHeads_nil (heads : List String) : newHeads [] heads = heads.eraseDups := by
  simp [newHeads]

theorem terminalNames_congr {heads heads' read : List String}
    (h : ∀ name, name ∈ heads ↔ name ∈ heads') :
    terminalNames heads read = terminalNames heads' read := by
  simp only [terminalNames, h]

/-- The grammar of productions is the one that they define. -/
theorem isDefinedBy_of_ofProductions (h : ofProductions productions = .ok g) :
    g.IsDefinedBy productions := by
  obtain ⟨hrules, hnonterminals, hterminals⟩ := keys_of_ofProductions h
  obtain ⟨hlists, hheads, -⟩ := lists_of_ofProductions h
  rw [newHeads_nil] at hheads
  refine ⟨hrules, hlists.rules_named, hnonterminals, hheads, hterminals, ?_, ?_⟩
  · rw [hlists.terminals_eq]
    apply terminalNames_congr
    simp [hheads]
  · have hfirst := hlists.start_first
    cases productions with
    | nil => contradiction
    | cons production productions =>
        rw [List.map_cons, List.eraseDups_cons] at hheads
        cases hentries : g.nonterminals.entries with
        | nil => simp [OrderedMap.keys, hentries] at hfirst
        | cons entry entries =>
            simp only [OrderedMap.keys, hentries, List.map_cons, List.head?_cons,
              Option.some.injEq] at hfirst
            simp only [OrderedMap.values, hentries, List.map_cons, List.cons.injEq] at hheads
            rw [List.head?_cons, Option.map_some, ← hheads.1, ← hfirst]
            exact OrderedMap.get?_eq_some_iff.mpr (by simp [hentries])

theorem IsPlain.eq_of_name? (hg : g.IsPlain) (symbol symbol' : Symbol) (name : String)
    (h : g.name? symbol = some name) (h' : g.name? symbol' = some name) : symbol = symbol' := by
  refine hg.toDefinition.toWellFormed.eq_of_name? symbol symbol' name ?_ ?_
  · cases symbol <;> exact h
  · cases symbol' <;> exact h'

/-- The productions determine the grammar, because no two symbols have one name. -/
theorem IsDefinedBy.unique (hg : g.IsPlain) (h : g.IsDefinedBy productions)
    (h' : g'.IsDefinedBy productions) : g' = g := by
  have hterminals : g'.terminals = g.terminals :=
    OrderedMap.eq_of_values_eq h'.terminals_keys h.terminals_keys
      (h'.terminals_eq.trans h.terminals_eq.symm)
  have hnonterminals : g'.nonterminals = g.nonterminals :=
    OrderedMap.eq_of_values_eq h'.nonterminals_keys h.nonterminals_keys
      (h'.nonterminals_eq.trans h.nonterminals_eq.symm)
  have hnames : g'.name? = g.name? := by
    funext symbol
    cases symbol with
    | terminal t => rw [name?, name?, hterminals]
    | nonterminal n => rw [name?, name?, hnonterminals]
  have hinj := hg.eq_of_name?
  have hrules_eq : g'.rules = g.rules := by
    refine OrderedMap.eq_of_values_eq h'.rules_keys h.rules_keys ?_
    have hnamed := h'.rules_named
    rw [hnames] at hnamed
    exact (Rule.biUnique_hasNames hinj).1.forall₂ hnamed h.rules_named
  have hstart : g'.start = g.start := by
    have hsame := h'.start_named.trans h.start_named.symm
    rw [hnames] at hsame
    obtain ⟨name, hname⟩ := OrderedMap.mem_keys_iff.mp hg.start_declared
    exact Symbol.nonterminal.inj (hinj _ _ name (hsame.trans hname) hname)
  cases g
  cases g'
  simp_all

end Grammar

end GrammarAnalysis

import Mathlib.Data.List.Sublists
import GrammarAnalysis.Proofs.Grammar.Numbering
import GrammarAnalysis.Proofs.Grammar.Refusals
import GrammarAnalysis.Proofs.Grammar.RoundTrip

/-!
# Which texts are grammars

A text is read exactly if its lines are written as productions, there is at
least one of them, no body has the name of the end of input, no rule is
given twice, and there are numbers for all symbols and rules.  The grammar that is read
is the one that these productions define.  If numbers are all that is missing, they run
out.  The bodies are cut at bars before they are cut into names, so here the name of
the end of input counts wherever bars or blanks stand around it.
-/

namespace GrammarAnalysis

open Text

namespace Production

/-- Whether the productions define a grammar. -/
structure DefineGrammar (productions : List Production) : Prop where
  ne_nil : productions ≠ []
  endOfInput_unused : ∀ rule ∈ productions.flatMap rules, endOfInputName ∉ rule.2
  rules_nodup : (productions.flatMap rules).Nodup

/-- Whether there are numbers for the symbols and the rules of the productions.  The end of input
is counted as a terminal, but its number is not one of those that are handed out. -/
structure CanBeNumbered (productions : List Production) : Prop where
  heads_fit : (productions.map headName).eraseDups.length < lastNumber
  terminals_fit : (terminalNames (productions.map headName)
    ((productions.flatMap rules).flatMap Prod.snd)).length ≤ lastNumber
  rules_fit : (productions.flatMap rules).length < lastNumber

variable {production : Production} {productions : List Production}

/-- The names in the bodies are those between bars, without the one of the empty sentence. -/
theorem exists_mem_bodies_iff {name : String} :
    (∃ body ∈ production.bodies, name ∈ body) ↔
      name.toList ∈ alternativeWords production.alternatives ∧ name ≠ epsilonName := by
  have hname : ∀ chars : List Char, String.ofList chars = name ↔ chars = name.toList := fun chars =>
    ⟨fun h => by rw [← h, String.toList_ofList], fun h => by rw [h, String.ofList_toList]⟩
  simp only [bodies, alternativeWords, hname, List.mem_map, List.mem_flatMap, List.mem_filter,
    exists_exists_and_eq_and, exists_eq_right, decide_eq_true_eq]
  constructor
  · rintro ⟨piece, hpiece, hname, hne⟩
    exact ⟨⟨piece, hpiece, hname⟩, hne⟩
  · rintro ⟨⟨piece, hpiece, hname⟩, hne⟩
    exact ⟨piece, hpiece, hname, hne⟩

theorem endOfInput_unused_iff :
    (∀ rule ∈ productions.flatMap rules, endOfInputName ∉ rule.2) ↔
      ∀ production ∈ productions,
        endOfInputName.toList ∉ alternativeWords production.alternatives := by
  have hbodies : ∀ production : Production, (∃ body ∈ production.bodies, endOfInputName ∈ body) ↔
      endOfInputName.toList ∈ alternativeWords production.alternatives := fun production => by
    rw [exists_mem_bodies_iff, and_iff_left (by decide)]
  simp only [← hbodies, not_exists, not_and]
  constructor
  · intro h production hproduction body hbody
    exact h (production.headName, body)
      (mem_flatMap_rules.mpr ⟨production, hproduction, rfl, hbody⟩)
  · intro h rule hrule
    obtain ⟨production, hproduction, -, hbody⟩ := mem_flatMap_rules.mp hrule
    exact h production hproduction rule.2 hbody

/-- Where bars and blanks alike end a name, `$` is found if blanks alone do. -/
theorem endOfInput_not_mem_words
    (h : endOfInputName.toList ∉ alternativeWords production.alternatives) :
    endOfInputName.toList ∉ words production.alternatives :=
  fun hmem => h (mem_alternativeWords_of_mem_words hmem (by decide))

theorem AreWrittenOn.endOfInput_not_mem_heads {lines : List (List Char)}
    (h : AreWrittenOn productions lines) : endOfInputName ∉ productions.map headName := by
  rw [List.mem_map]
  rintro ⟨production, hproduction, hhead⟩
  obtain ⟨line, hline⟩ := h.exists_isWrittenOn hproduction
  apply hline.head_ne
  rw [← hhead]
  simp [headName]

end Production

namespace Definition

variable {d : Definition} {heads : List String}

/-- A head that is new can be declared if there is a number for it. -/
theorem declareNonterminal_eq_drawing {head : String}
    (hterminals : d.terminals.values = [endOfInputName]) (hne : endOfInputName ≠ head)
    (hnew : head ∉ d.nonterminals.values) :
    d.declareNonterminal head = drawing d.nextNonterminal (d.addNonterminal head) := by
  refine if_neg ?_
  rw [declares, names, hterminals]
  simpa [hne.symm] using hnew

/-- Heads can be declared when the end of input is the only terminal and there are numbers for
them. -/
theorem IsPlain.exists_declareHeads (hd : d.IsPlain) (hnumbered : d.IsNumbered)
    (hterminals : d.terminals.values = [endOfInputName]) (h : endOfInputName ∉ heads)
    (hfit : d.nonterminals.values.length + (newHeads d.nonterminals.values heads).length <
      lastNumber) : ∃ d', d.declareHeads heads = .ok d' := by
  induction heads generalizing d with
  | nil => exact ⟨d, rfl⟩
  | cons head heads ih =>
      rw [List.mem_cons, not_or] at h
      by_cases hold : head ∈ d.nonterminals.values
      · rw [newHeads_cons_of_mem hold] at hfit
        rw [Definition.declareHeads, if_pos (by simpa using hold)]
        exact ih hd hnumbered hterminals h.2 hfit
      · rw [newHeads_cons_of_not_mem hold, List.length_cons] at hfit
        have hnext : d.nextNonterminal < lastNumber := by
          rw [hnumbered.nextNonterminal_eq]
          omega
        have hdeclared : d.declareNonterminal head = .ok (d.addNonterminal head) := by
          rw [declareNonterminal_eq_drawing hterminals h.1 hold, drawing, if_pos hnext]
        have hvalues : (d.addNonterminal head).2.nonterminals.values =
            d.nonterminals.values ++ [head] :=
          OrderedMap.values_insert_of_not_mem hd.toWellFormed.nextNonterminal_not_mem head
        obtain ⟨d', hd'⟩ := ih (d := (d.addNonterminal head).2)
          (hd.declareNonterminal hdeclared) (hnumbered.readStep (.nonterminal hdeclared))
          hterminals h.2 (by rw [hvalues, List.length_append, List.length_singleton]; omega)
        refine ⟨d', ?_⟩
        rw [Definition.declareHeads, if_neg (by simpa using hold), hdeclared]
        exact hd'

/-- Declaring heads fails when there are not enough numbers for them. -/
theorem IsPlain.declareHeads_of_full (hd : d.IsPlain) (hnumbered : d.IsNumbered)
    (hterminals : d.terminals.values = [endOfInputName]) (h : endOfInputName ∉ heads)
    (hfull : lastNumber ≤
      d.nonterminals.values.length + (newHeads d.nonterminals.values heads).length) :
    d.declareHeads heads = .error .numbersExhausted := by
  induction heads generalizing d with
  | nil =>
      have hfits := (fits_iff.mp hnumbered.fits).2.1
      rw [hnumbered.nextNonterminal_eq] at hfits
      simp only [newHeads, List.filter_nil, List.eraseDups_nil, List.length_nil] at hfull
      omega
  | cons head heads ih =>
      rw [List.mem_cons, not_or] at h
      by_cases hold : head ∈ d.nonterminals.values
      · rw [newHeads_cons_of_mem hold] at hfull
        rw [Definition.declareHeads, if_pos (by simpa using hold)]
        exact ih hd hnumbered hterminals h.2 hfull
      · rw [newHeads_cons_of_not_mem hold, List.length_cons] at hfull
        have hdrawing := declareNonterminal_eq_drawing hterminals h.1 hold
        rw [Definition.declareHeads, if_neg (by simpa using hold)]
        by_cases hnext : d.nextNonterminal < lastNumber
        · rw [drawing, if_pos hnext] at hdrawing
          have hvalues : (d.addNonterminal head).2.nonterminals.values =
              d.nonterminals.values ++ [head] :=
            OrderedMap.values_insert_of_not_mem hd.toWellFormed.nextNonterminal_not_mem head
          have hrest := ih (d := (d.addNonterminal head).2)
            (hd.declareNonterminal hdrawing) (hnumbered.readStep (.nonterminal hdrawing))
            hterminals h.2 (by rw [hvalues, List.length_append, List.length_singleton]; omega)
          rw [hdrawing]
          exact hrest
        · rw [hdrawing, drawing, if_neg hnext]
          rfl

end Definition

namespace Grammar

variable {g : Grammar} {text : String} {productions : List Production}

/-- Heads that have been declared once and for all count as heads. -/
theorem terminalNames_eraseDups (heads read : List String) :
    terminalNames heads.eraseDups read = terminalNames heads read :=
  terminalNames_congr fun _ => List.mem_eraseDups

theorem defineGrammar_of_ofProductions (h : ofProductions productions = .ok g) :
    Production.DefineGrammar productions ∧ Production.CanBeNumbered productions := by
  obtain ⟨hlists, hvalues, d, hheads, hsame⟩ := lists_of_ofProductions h
  have hnumbered := Definition.IsNumbered.empty.readSteps
    (Definition.readSteps_declareHeads hheads)
  have hfit := (Definition.fits_iff.mp hnumbered.fits).2.1
  have hterminals := hlists.terminals_fit
  rw [newHeads_nil] at hvalues
  rw [hnumbered.nextNonterminal_eq, hsame, hvalues] at hfit
  rw [hvalues, terminalNames_eraseDups] at hterminals
  refine ⟨⟨?_, hlists.endOfInput_unused, hlists.rules_nodup⟩, hfit, hterminals, hlists.rules_fit⟩
  rintro rfl
  contradiction

/-- What the productions define is read from the text on whose lines they are written. -/
theorem ofText_eq_ofProductions
    (hwritten : Production.AreWrittenOn productions (lines text.toList))
    (h : Production.DefineGrammar productions) : ofText text = ofProductions productions := by
  have hunused := Production.endOfInput_unused_iff.mp h.endOfInput_unused
  rw [ofText, Production.ofLines_of_areWrittenOn hwritten
    (fun production hmem => Production.endOfInput_not_mem_words (hunused production hmem)) 1]
  rfl

/-- The heads of productions are declared first, if there are numbers for them. -/
theorem exists_declareHeads_empty (hheads : endOfInputName ∉ productions.map Production.headName)
    (hfit : (productions.map Production.headName).eraseDups.length < lastNumber) :
    ∃ d, Definition.empty.declareHeads (productions.map Production.headName) = .ok d ∧
      d.nonterminals.values = (productions.map Production.headName).eraseDups := by
  rw [← newHeads_nil] at hfit ⊢
  obtain ⟨d, hd⟩ := Definition.IsPlain.empty.exists_declareHeads .empty rfl hheads
    (by rwa [show Definition.empty.nonterminals.values = [] from rfl, List.length_nil,
      Nat.zero_add])
  exact ⟨d, hd, (Definition.lists_nil_of_declareHeads hd).2.2.1⟩

end Grammar

namespace Production

/-- Why productions without a fault do not define a grammar: there are none, or not enough numbers
for their heads, or there is a first rule that is refused. -/
inductive AreRefused (productions : List Production) : GrammarError → Prop
  | empty (eq_nil : productions = []) : AreRefused productions .empty
  | heads (full : lastNumber ≤ (productions.map headName).eraseDups.length) :
      AreRefused productions .numbersExhausted
  | rule {before after : List NamedRule} {rule : NamedRule} {error : GrammarError}
      (fit : (productions.map headName).eraseDups.length < lastNumber)
      (rules_eq : productions.flatMap rules = before ++ rule :: after)
      (added : CanAdd (productions.map headName).eraseDups before)
      (refuses : Definition.Refuses (productions.map headName).eraseDups before rule error) :
      AreRefused productions error

variable {productions : List Production} {error : GrammarError}

theorem defineGrammar_or_areRefused (productions : List Production) :
    DefineGrammar productions ∧ CanBeNumbered productions ∨
      ∃ error, AreRefused productions error := by
  by_cases hnil : productions = []
  · exact Or.inr ⟨_, .empty hnil⟩
  by_cases hfit : (productions.map headName).eraseDups.length < lastNumber
  · rcases Definition.canAdd_or_refuses (productions.map headName).eraseDups
      (productions.flatMap rules) with
      hadded | ⟨before, rule, after, error, hrules, hadded, hrefuses⟩
    · refine Or.inl ⟨⟨hnil, hadded.endOfInput_unused, hadded.rules_nodup⟩, hfit, ?_,
        hadded.rules_fit⟩
      rw [← Grammar.terminalNames_eraseDups]
      exact hadded.terminals_fit
    · exact Or.inr ⟨error, .rule hfit hrules hadded hrefuses⟩
  · exact Or.inr ⟨_, .heads (Nat.le_of_not_lt hfit)⟩

theorem AreRefused.ofProductions_eq (h : AreRefused productions error)
    (hheads : endOfInputName ∉ productions.map headName) :
    Grammar.ofProductions productions = .error error := by
  cases h with
  | empty eq_nil =>
      rw [eq_nil]
      rfl
  | heads full =>
      have hne : productions ≠ [] := by
        rintro rfl
        exact absurd full (by decide)
      rw [← Grammar.newHeads_nil] at full
      rw [Grammar.ofProductions, if_neg (by simpa using hne),
        Definition.IsPlain.empty.declareHeads_of_full .empty rfl hheads
          (Nat.le_trans full (Nat.le_add_left _ _))]
      rfl
  | @rule before after rule error fit rules_eq added refuses =>
      have hne : productions ≠ [] := by
        rintro rfl
        simp at rules_eq
      obtain ⟨d, hdeclared, hvalues⟩ := Grammar.exists_declareHeads_empty hheads fit
      obtain ⟨hlists, -, -, hknown⟩ := Definition.lists_nil_of_declareHeads hdeclared
      have hd := Definition.IsPlain.empty.declareHeads hdeclared
      have hnumbered := Definition.IsNumbered.empty.readSteps
        (Definition.readSteps_declareHeads hdeclared)
      rw [rules_eq] at hknown
      rw [← hvalues] at added refuses
      have hfold := hd.foldlM_of_refuses hnumbered hlists hknown added refuses
      rw [Grammar.ofProductions, if_neg (by simpa using hne), hdeclared]
      simp only [bind, Except.bind, Definition.addProductions_eq_foldlM, rules_eq, hfold]

/-- Productions that define a grammar but for the numbers are refused for want of numbers. -/
theorem AreRefused.error_eq (h : AreRefused productions error)
    (hdefine : DefineGrammar productions) : error = .numbersExhausted := by
  cases h with
  | empty eq_nil => exact absurd eq_nil hdefine.ne_nil
  | heads full => rfl
  | @rule before after rule error fit rules_eq added refuses =>
      have hmem : rule ∈ productions.flatMap rules := by simp [rules_eq]
      cases refuses with
      | endOfInput body_eq unused fit =>
          exact absurd (by simp [body_eq]) (hdefine.endOfInput_unused rule hmem)
      | terminals body_eq unused full => rfl
      | repeated mem =>
          have hnodup := hdefine.rules_nodup
          rw [rules_eq] at hnodup
          exact absurd rfl ((List.nodup_append.mp hnodup).2.2 rule mem rule List.mem_cons_self)
      | rules new unused fit full => rfl

end Production

namespace Grammar

variable {g : Grammar} {text : String} {productions : List Production}

/-- Productions that are written on the lines of the text define the grammar that is read, if
there are numbers for it. -/
theorem exists_ofText_of_areWrittenOn
    (hwritten : Production.AreWrittenOn productions (lines text.toList))
    (h : Production.DefineGrammar productions) (hnumbers : Production.CanBeNumbered productions) :
    ∃ g, ofText text = .ok g ∧ g.IsDefinedBy productions := by
  obtain ⟨d, hheads, hvalues⟩ :=
    exists_declareHeads_empty hwritten.endOfInput_not_mem_heads hnumbers.heads_fit
  have hadd : CanAdd d.nonterminals.values (productions.flatMap Production.rules) := by
    refine ⟨h.endOfInput_unused, h.rules_nodup, ?_, hnumbers.rules_fit⟩
    rw [hvalues, terminalNames_eraseDups]
    exact hnumbers.terminals_fit
  obtain ⟨g, hg, -⟩ := exists_ofProductions h.ne_nil hheads hadd
  exact ⟨g, (ofText_eq_ofProductions hwritten h).trans hg, isDefinedBy_of_ofProductions hg⟩

/-- Productions that would define a grammar exhaust the numbers if there are not enough. -/
theorem ofText_of_not_canBeNumbered
    (hwritten : Production.AreWrittenOn productions (lines text.toList))
    (h : Production.DefineGrammar productions) (hnumbers : ¬ Production.CanBeNumbered productions) :
    ofText text = .error .numbersExhausted := by
  rw [ofText_eq_ofProductions hwritten h]
  rcases Production.defineGrammar_or_areRefused productions with hall | ⟨error, hrefused⟩
  · exact absurd hall.2 hnumbers
  · rw [hrefused.ofProductions_eq hwritten.endOfInput_not_mem_heads, hrefused.error_eq h]

theorem exists_areWrittenOn_of_ofText (h : ofText text = .ok g) :
    ∃ productions, Production.AreWrittenOn productions (lines text.toList) ∧
      Production.DefineGrammar productions ∧ Production.CanBeNumbered productions := by
  obtain ⟨productions, hlines, hproductions⟩ := exists_of_bind_eq_ok h
  exact ⟨productions, (Production.areWrittenOn_of_ofLines hlines).1,
    defineGrammar_of_ofProductions hproductions⟩

/-- A text is read as a grammar exactly if all its lines that are not blank are written as
productions which define one: there is such a line, no name in the bodies is the one of the end of
input, and no rule is given twice; and if there are numbers for the symbols and the rules.  What is
read then is the one grammar that these productions define.  If there are not enough numbers, they
run out. -/
theorem reading_exact (text : String) :
    ((∃ g, ofText text = .ok g) ↔
      ∃ productions, Production.AreWrittenOn productions (lines text.toList) ∧
        Production.DefineGrammar productions ∧ Production.CanBeNumbered productions) ∧
    ∀ productions, Production.AreWrittenOn productions (lines text.toList) →
      Production.DefineGrammar productions →
        (Production.CanBeNumbered productions →
          ∀ g, ofText text = .ok g ↔ g.IsDefinedBy productions) ∧
        (¬ Production.CanBeNumbered productions → ofText text = .error .numbersExhausted) := by
  refine ⟨⟨fun ⟨g, hg⟩ => exists_areWrittenOn_of_ofText hg, ?_⟩, ?_⟩
  · rintro ⟨productions, hwritten, hdefine, hnumbers⟩
    obtain ⟨g, hg, -⟩ := exists_ofText_of_areWrittenOn hwritten hdefine hnumbers
    exact ⟨g, hg⟩
  · intro productions hwritten hdefine
    refine ⟨fun hnumbers g => ?_, ofText_of_not_canBeNumbered hwritten hdefine⟩
    obtain ⟨g', hg', hdefined⟩ := exists_ofText_of_areWrittenOn hwritten hdefine hnumbers
    constructor
    · intro hg
      rwa [← Except.ok.inj (hg'.symm.trans hg)]
    · intro hg
      rw [hg', hdefined.unique (isPlain_of_ofText hg') hg]

/-- Bars and arrows do not need blanks around them, a bar and a minus sign can be heads, an
alternative can be empty, and the second head occurs in a body before its own line. -/
theorem reading_exact_bars :
    let text := "| ->- x|a epsilon|\n \n\t- -> x b|\n"
    let productions : List Production := [⟨'|', "- x|a epsilon|".toList⟩, ⟨'-', " x b|".toList⟩]
    Production.AreWrittenOn productions (lines text.toList) ∧
      Production.DefineGrammar productions ∧ Production.CanBeNumbered productions ∧
        ∃ g, ofText text = .ok g ∧ g.IsDefinedBy productions := by
  intro text productions
  have hwritten : Production.AreWrittenOn productions (lines text.toList) := by
    have hfilled : Production.filledLines (lines text.toList) =
        ["| ->- x|a epsilon|".toList, "\t- -> x b|".toList] := by decide +kernel
    rw [Production.AreWrittenOn, hfilled]
    refine .cons ⟨⟨"| ".toList, ⟨rfl, by decide⟩, by decide⟩, by decide⟩ (.cons ?_ .nil)
    exact ⟨⟨"\t- ".toList, ⟨rfl, by decide⟩, by decide⟩, by decide⟩
  have hdefine : Production.DefineGrammar productions :=
    ⟨by decide, by decide +kernel, by decide +kernel⟩
  have hnumbers : Production.CanBeNumbered productions :=
    ⟨by decide +kernel, by decide +kernel, by decide +kernel⟩
  obtain ⟨hread, hexact⟩ := reading_exact text
  obtain ⟨g, hg⟩ := hread.mpr ⟨productions, hwritten, hdefine, hnumbers⟩
  exact ⟨hwritten, hdefine, hnumbers, g, hg,
    ((hexact productions hwritten hdefine).1 hnumbers g).mp hg⟩

/-! ## Printed rules -/

theorem eraseDups_of_nodup {names : List String} (h : names.Nodup) : names.eraseDups = names := by
  induction names with
  | nil => rfl
  | cons name names ih =>
      rw [List.nodup_cons] at h
      have hothers : (names.filter fun other => !other == name) = names := by
        rw [List.filter_eq_self]
        intro other hother
        simpa using ne_of_mem_of_not_mem hother h.1
      rw [List.eraseDups_cons, hothers, ih h.2]

/-- Printed rules are read if there are numbers for them. -/
theorem exists_ofText_of_isPrintable {heads : List String} {rules : List NamedRule}
    (h : NamedRule.IsPrintable heads rules) (hne : heads ≠ [])
    (hheads : heads.length < lastNumber) (hadd : CanAdd heads rules) :
    ∃ g, ofText (NamedRule.text heads rules) = .ok g ∧ g.nonterminals.values = heads ∧
      g.Lists (NamedRule.gathered heads rules) := by
  obtain ⟨productions, hlines, hnames, -⟩ := h.exists_ofLines (fun _ hhead => hhead) 1
  have hend := (Production.areWrittenOn_of_ofLines hlines).1.endOfInput_not_mem_heads
  have hdistinct : (productions.map Production.headName).eraseDups = heads := by
    rw [hnames, eraseDups_of_nodup h.heads_nodup]
  obtain ⟨d, hdeclared, hvalues⟩ := exists_declareHeads_empty hend (by rwa [hdistinct])
  rw [hnames] at hdeclared
  rw [hdistinct] at hvalues
  obtain ⟨g, hg, hnonterminals, hlists⟩ := h.exists_ofText hne hdeclared hvalues hadd
  exact ⟨g, hg, by rw [hnonterminals, hvalues], hlists⟩

/-! ## Texts with too many rules -/

/-- Printed rules are written as productions that would define a grammar of as many rules. -/
theorem exists_areWrittenOn_of_isPrintable {heads : List String} {rules : List NamedRule}
    (h : NamedRule.IsPrintable heads rules) (hne : heads ≠ []) :
    ∃ productions, Production.AreWrittenOn productions (lines (NamedRule.text heads rules).toList) ∧
      Production.DefineGrammar productions ∧
      productions.flatMap Production.rules = NamedRule.gathered heads rules := by
  obtain ⟨productions, hlines, hheads, hrules⟩ := h.exists_ofLines (fun _ hhead => hhead) 1
  refine ⟨productions, (Production.areWrittenOn_of_ofLines hlines).1, ⟨?_, ?_, ?_⟩, hrules⟩
  · rintro rfl
    exact hne hheads.symm
  · rw [hrules]
    rintro ⟨head, body⟩ hrule hend
    have hprinted := (NamedRule.mem_gathered_iff.mp hrule).2
    exact (h.isBodyName _ hprinted _ hend).ne_endOfInput rfl
  · rw [hrules]
    exact NamedRule.nodup_gathered h.heads_nodup h.rules_nodup

/-- Seventeen names for the bodies of a text. -/
def seventeenNames : List String := "abcdefghijklmnopq".toList.map Char.toString

/-- The rules of one head for all choices of these names. -/
def rulesOfChoices : List NamedRule := seventeenNames.sublists.map fun body => ("S", body)

theorem isPrintable_rulesOfChoices : NamedRule.IsPrintable ["S"] rulesOfChoices where
  heads_nodup := List.nodup_singleton _
  rules_nodup := (List.nodup_sublists.mpr (by decide)).map fun _ _ h => (Prod.mk.inj h).2
  exists_char head hhead := ⟨'S', List.mem_singleton.mp hhead, by decide, by decide⟩
  bodies_ne_nil head hhead := by
    rw [List.mem_singleton.mp hhead, rulesOfChoices, NamedRule.bodiesOf_map_self]
    exact List.ne_nil_of_mem (List.mem_sublists.mpr (List.nil_sublist _))
  head_mem rule hrule := by
    obtain ⟨body, -, rfl⟩ := List.mem_map.mp hrule
    exact List.mem_singleton_self _
  isBodyName rule hrule name hname := by
    have hchars : ("abcdefghijklmnopq".toList.all fun c =>
        decide (isBlank c = false ∧ c ≠ '|' ∧ c ≠ '$')) = true := by decide
    obtain ⟨body, hbody, rfl⟩ := List.mem_map.mp hrule
    obtain ⟨c, hc, rfl⟩ := List.mem_map.mp ((List.mem_sublists.mp hbody).subset hname)
    obtain ⟨hblank, hbar, hdollar⟩ := of_decide_eq_true (List.all_eq_true.mp hchars c hc)
    exact isBodyName_toString hblank hbar hdollar

/-- A line with all these rules is written as a production that would define a grammar, but the
numbers run out when it is read. -/
theorem exists_ofText_eq_numbersExhausted :
    ∃ productions,
      Production.AreWrittenOn productions (lines (NamedRule.text ["S"] rulesOfChoices).toList) ∧
      Production.DefineGrammar productions ∧
      ofText (NamedRule.text ["S"] rulesOfChoices) = .error .numbersExhausted := by
  obtain ⟨productions, hwritten, hdefine, hrules⟩ :=
    exists_areWrittenOn_of_isPrintable isPrintable_rulesOfChoices (List.cons_ne_nil _ _)
  refine ⟨productions, hwritten, hdefine, ofText_of_not_canBeNumbered hwritten hdefine ?_⟩
  intro hnumbers
  have hlength : (NamedRule.gathered ["S"] rulesOfChoices).length = 2 ^ 17 := by
    rw [NamedRule.gathered, List.flatMap_singleton, rulesOfChoices, NamedRule.bodiesOf_map_self,
      List.length_map, List.length_sublists]
    rfl
  have hfit := hnumbers.rules_fit
  rw [hrules, hlength] at hfit
  exact absurd hfit (by decide)

end Grammar

end GrammarAnalysis

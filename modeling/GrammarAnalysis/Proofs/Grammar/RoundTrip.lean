import Mathlib.Data.List.Induction
import Mathlib.Data.List.Perm.Subperm
import GrammarAnalysis.Proofs.Grammar.Lines
import GrammarAnalysis.Proofs.Grammar.Printing

/-!
# Reading a printed grammar

Names that are read from a line hold nothing that separates lines, words or
alternatives, and heads are single characters (`NamedRule.IsPrintable`).  So a
printed line is taken apart into its head and its bodies again, and the rules
that are read are those that were printed.  A grammar and the one that is read
from its text thus differ at most in the order of rules with different heads, and
in the order of terminals.
-/

namespace GrammarAnalysis

open Text

/-! ## Names on a line -/

/-- Whether the name can stand in a body on a line. -/
structure IsBodyName (name : String) : Prop where
  ne_nil : name.toList ≠ []
  not_blank : ∀ c ∈ name.toList, isBlank c = false
  no_bar : '|' ∉ name.toList
  no_arrow : HasNoArrow name.toList
  ne_epsilon : name ≠ Production.epsilonName
  ne_endOfInput : name ≠ endOfInputName

/-- A single character can stand there. -/
theorem isBodyName_toString {c : Char} (hblank : isBlank c = false) (hbar : c ≠ '|')
    (hdollar : c ≠ '$') : IsBodyName c.toString where
  ne_nil := by simp
  not_blank := by simpa using hblank
  no_bar := by simpa using hbar.symm
  no_arrow := by simp [HasNoArrow]
  ne_epsilon h := by simpa [Production.epsilonName] using congrArg String.toList h
  ne_endOfInput h := by simpa [endOfInputName, hdollar] using congrArg String.toList h

namespace NamedRule

/-- Whether each head is a single character and has rules, no rule is repeated, and the
names in bodies can stand on a line. -/
structure IsPrintable (heads : List String) (rules : List NamedRule) : Prop where
  heads_nodup : heads.Nodup
  rules_nodup : rules.Nodup
  exists_char : ∀ head ∈ heads, ∃ c : Char, head = c.toString ∧ isBlank c = false ∧ c ≠ '$'
  bodies_ne_nil : ∀ head ∈ heads, bodiesOf rules head ≠ []
  head_mem : ∀ rule ∈ rules, rule.1 ∈ heads
  isBodyName : ∀ rule ∈ rules, ∀ name ∈ rule.2, IsBodyName name

end NamedRule

/-! ## Taking a line apart -/

namespace Text

variable {text : List Char} {others : List (List Char)}

/-- The texts with bars between them. -/
def barred (texts : List (List Char)) : List Char := [' ', '|', ' '].intercalate texts

theorem barred_cons_cons (text other : List Char) (others : List (List Char)) :
    barred (text :: other :: others) = text ++ ' ' :: '|' :: ' ' :: barred (other :: others) := by
  simp [barred, List.intercalate_cons_cons]

theorem map_words_splitWhere_barred (h : ∀ piece ∈ text :: others, '|' ∉ piece) :
    (splitWhere (· = '|') (' ' :: barred (text :: others))).map words =
      (text :: others).map words := by
  induction others generalizing text with
  | nil =>
      rw [List.forall_mem_singleton] at h
      rw [barred, List.intercalate_singleton, splitWhere_of_not_mem (by simpa using h),
        List.map_singleton, words_cons rfl, List.map_singleton]
  | cons other others ih =>
      rw [List.forall_mem_cons] at h
      have hshape : ' ' :: barred (text :: other :: others) =
          (' ' :: text ++ [' ']) ++ '|' :: ' ' :: barred (other :: others) := by
        simp [barred_cons_cons]
      have hwords : words (' ' :: text ++ [' ']) = words text := by
        rw [List.cons_append, words_cons rfl, words_append_cons rfl, words_nil, List.append_nil]
      rw [hshape, splitWhere_append_cons (by simp), splitWhere_of_not_mem (by simpa using h.1),
        List.map_append, ih h.2, List.map_singleton, hwords]
      rfl

theorem mem_words_barred {word : List Char} (h : word ∈ words (barred (text :: others))) :
    word = ['|'] ∨ ∃ piece ∈ text :: others, word ∈ words piece := by
  induction others generalizing text with
  | nil =>
      rw [barred, List.intercalate_singleton] at h
      exact Or.inr ⟨text, by simp, h⟩
  | cons other others ih =>
      have hbar : words ('|' :: ' ' :: barred (other :: others)) =
          ['|'] :: words (barred (other :: others)) :=
        words_append_cons rfl ['|'] _
      rw [barred_cons_cons, words_append_cons rfl, hbar, List.mem_append, List.mem_cons] at h
      rcases h with h | h | h
      · exact Or.inr ⟨text, by simp, h⟩
      · exact Or.inl h
      · refine (ih h).imp_right ?_
        rintro ⟨piece, hpiece, hword⟩
        exact ⟨piece, List.mem_cons_of_mem _ hpiece, hword⟩

end Text

/-! ## Reading a line -/

namespace NamedRule

variable {body : List String} {bodies : List (List String)}

/-- The characters of a printed body. -/
def bodyChars (body : List String) : List Char := (bodyText body).toList

theorem bodyChars_of_ne_nil (h : body ≠ []) :
    bodyChars body = [' '].intercalate (body.map String.toList) := by
  rw [bodyChars, bodyText, if_neg (by simpa using h), String.toList_intercalate]
  rfl

theorem words_bodyChars (hne : body ≠ []) (h : ∀ name ∈ body, IsBodyName name) :
    words (bodyChars body) = body.map String.toList := by
  rw [bodyChars_of_ne_nil hne, words_intercalate]
  · simpa using fun name hname => (h name hname).ne_nil
  · simpa using fun name hname => (h name hname).not_blank

theorem filter_words_bodyChars (h : ∀ name ∈ body, IsBodyName name) :
    ((words (bodyChars body)).map String.ofList).filter (· ≠ Production.epsilonName) = body := by
  by_cases hnil : body = []
  · subst hnil
    decide
  · rw [words_bodyChars hnil h, List.map_map, List.filter_eq_self.mpr]
    · simp [Function.comp_def]
    · simpa using fun name hname => (h name hname).ne_epsilon

theorem mem_words_bodyChars (h : ∀ name ∈ body, IsBodyName name) {word : List Char}
    (hword : word ∈ words (bodyChars body)) : word ≠ endOfInputName.toList := by
  by_cases hnil : body = []
  · subst hnil
    obtain rfl : word = Production.epsilonName.toList := by
      have hwords : words (bodyChars []) = [Production.epsilonName.toList] := by decide
      rwa [hwords, List.mem_singleton] at hword
    decide
  · rw [words_bodyChars hnil h, List.mem_map] at hword
    obtain ⟨name, hname, rfl⟩ := hword
    exact fun heq => (h name hname).ne_endOfInput (String.toList_injective heq)

theorem mem_bodyChars (h : ∀ name ∈ body, IsBodyName name) {c : Char} (hc : c ∈ bodyChars body) :
    c ≠ '|' ∧ (isBlank c = true → c = ' ') := by
  by_cases hnil : body = []
  · subst hnil
    have hall : ((bodyChars []).all fun c => c ≠ '|' && !isBlank c) = true := by decide
    have hchar := List.all_eq_true.mp hall c hc
    rw [Bool.and_eq_true, decide_eq_true_eq, Bool.not_eq_true'] at hchar
    exact ⟨hchar.1, fun hblank => absurd hblank (by simp [hchar.2])⟩
  · rw [bodyChars_of_ne_nil hnil] at hc
    rcases mem_intercalate hc with hc | ⟨piece, hpiece, hc⟩
    · obtain rfl := List.mem_singleton.mp hc
      decide
    · obtain ⟨name, hname, rfl⟩ := List.mem_map.mp hpiece
      refine ⟨?_, ?_⟩
      · rintro rfl
        exact (h name hname).no_bar hc
      · rw [(h name hname).not_blank c hc]
        exact fun hfalse => nomatch hfalse

theorem hasNoArrow_bodyChars (h : ∀ name ∈ body, IsBodyName name) :
    HasNoArrow (bodyChars body) := by
  by_cases hnil : body = []
  · subst hnil
    rw [HasNoArrow]
    decide
  · rw [bodyChars_of_ne_nil hnil]
    refine HasNoArrow.intercalate ?_ (by decide) (by simp)
    simpa using fun name hname => (h name hname).no_arrow

/-! ## Reading a printed line -/

/-- The characters behind the arrow of a printed line. -/
def alternatives (bodies : List (List String)) : List Char :=
  ' ' :: barred (bodies.map bodyChars)

theorem toList_lineText (c : Char) (bodies : List (List String)) :
    (lineText c.toString bodies).toList = c :: ' ' :: '-' :: '>' :: alternatives bodies := by
  have hbodies : (bodies.map bodyText).map String.toList = bodies.map bodyChars := by
    rw [List.map_map]
    rfl
  simp [lineText, alternatives, barred, String.toList_intercalate, ← hbodies]

theorem hasNoArrow_alternatives (h : ∀ body ∈ bodies, ∀ name ∈ body, IsBodyName name) :
    HasNoArrow (alternatives bodies) := by
  refine HasNoArrow.cons (HasNoArrow.intercalate ?_ (by decide) (by simp)) (by decide)
  simpa using fun body hbody => hasNoArrow_bodyChars (h body hbody)

theorem endOfInput_not_mem_words_alternatives
    (h : ∀ body ∈ bodies, ∀ name ∈ body, IsBodyName name) (hne : bodies ≠ []) :
    endOfInputName.toList ∉ words (alternatives bodies) := by
  cases bodies with
  | nil => contradiction
  | cons body bodies =>
      rw [alternatives, words_cons rfl, List.map_cons]
      intro hmem
      rcases mem_words_barred hmem with hbar | ⟨piece, hpiece, hword⟩
      · revert hbar
        decide
      · rw [← List.map_cons] at hpiece
        obtain ⟨body', hbody', rfl⟩ := List.mem_map.mp hpiece
        exact mem_words_bodyChars (h body' hbody') hword rfl

theorem bodies_alternatives (c : Char) (h : ∀ body ∈ bodies, ∀ name ∈ body, IsBodyName name)
    (hne : bodies ≠ []) : (⟨c, alternatives bodies⟩ : Production).bodies = bodies := by
  have hpieces : ∀ piece ∈ bodies.map bodyChars, '|' ∉ piece := by
    rw [List.forall_mem_map]
    exact fun body hbody hbar => (mem_bodyChars (h body hbody) hbar).1 rfl
  have hwords : (splitWhere (· = '|') (alternatives bodies)).map words =
      (bodies.map bodyChars).map words := by
    cases bodies with
    | nil => contradiction
    | cons body bodies => exact map_words_splitWhere_barred hpieces
  calc
    (⟨c, alternatives bodies⟩ : Production).bodies =
        ((splitWhere (· = '|') (alternatives bodies)).map words).map fun words =>
          (words.map String.ofList).filter (· ≠ Production.epsilonName) := by
      rw [Production.bodies, List.map_map]
      rfl
    _ = bodies.map fun body => ((words (bodyChars body)).map String.ofList).filter
          (· ≠ Production.epsilonName) := by
      rw [hwords, List.map_map, List.map_map]
      rfl
    _ = bodies := by
      rw [List.map_congr_left fun body hbody => filter_words_bodyChars (h body hbody)]
      exact List.map_id' bodies

end NamedRule

namespace Production

variable {c : Char} {bodies : List (List String)}

/-- A printed line is read as its head and its bodies. -/
theorem ofLine?_lineText (hblank : isBlank c = false) (hdollar : c ≠ '$') (hne : bodies ≠ [])
    (hnames : ∀ body ∈ bodies, ∀ name ∈ body, IsBodyName name) (number : Nat) :
    ofLine? number (NamedRule.lineText c.toString bodies).toList =
      .ok (some ⟨c, NamedRule.alternatives bodies⟩) := by
  have harrows : splitArrows (c :: ' ' :: '-' :: '>' :: NamedRule.alternatives bodies) =
      [[c, ' '], NamedRule.alternatives bodies] := by
    simp [splitArrows, splitArrows_of_hasNoArrow (NamedRule.hasNoArrow_alternatives hnames),
      consFirst]
  have hend := NamedRule.endOfInput_not_mem_words_alternatives hnames hne
  have hhead : [c] ≠ endOfInputName.toList := fun heq => hdollar (List.singleton_inj.mp heq)
  rw [NamedRule.toList_lineText, ofLine?, if_neg (by simpa using trim_cons_ne_nil hblank _),
    harrows]
  simp [trim_append_blank hblank, hhead, hend]

/-- What is written on a line has a head that can be printed and no further arrow. -/
theorem IsWrittenOn.canBePrinted {line : List Char} {production : Production}
    (h : production.IsWrittenOn line) :
    isBlank production.head = false ∧ production.head ≠ '$' ∧
      HasNoArrow production.alternatives := by
  obtain ⟨left, hcuts, hhead⟩ := h.exists_left
  have hmem : production.alternatives ∈ splitArrows line := by simp [hcuts.splitArrows_eq]
  refine ⟨isBlank_eq_false_of_trim hhead, fun heq => h.head_ne ?_,
    hasNoArrow_of_mem_splitArrows hmem⟩
  rw [heq]
  rfl

theorem isBodyName_of_mem {production : Production} (h : HasNoArrow production.alternatives)
    {body : List String} {name : String} (hbody : body ∈ production.bodies) (hname : name ∈ body)
    (hne : name ≠ endOfInputName) : IsBodyName name := by
  obtain ⟨alternative, halternative, rfl⟩ := List.mem_map.mp hbody
  obtain ⟨hname, hepsilon⟩ := List.mem_filter.mp hname
  obtain ⟨word, hword, rfl⟩ := List.mem_map.mp hname
  have hinside := (infix_of_mem_words hword).trans (infix_of_mem_splitWhere halternative)
  refine ⟨?_, ?_, ?_, ?_, by simpa using hepsilon, hne⟩
  · simpa using ne_nil_of_mem_words hword
  · simpa using isBlank_eq_false_of_mem hword
  · rw [String.toList_ofList]
    intro hbar
    have hcut := isCut_eq_false_of_mem halternative '|' ((infix_of_mem_words hword).subset hbar)
    simp at hcut
  · rw [String.toList_ofList]
    exact h.of_inside hinside

theorem bodies_ne_nil (production : Production) : production.bodies ≠ [] := by
  rw [bodies, ne_eq, List.map_eq_nil_iff]
  exact splitWhere_ne_nil _ _

end Production

/-! ## Reading a printed text -/

/-- No terminal is listed twice. -/
theorem nodup_terminalNames (heads : List String) {rules : List NamedRule}
    (h : ∀ rule ∈ rules, endOfInputName ∉ rule.2) :
    (terminalNames heads (rules.flatMap Prod.snd)).Nodup := by
  have hunused : endOfInputName ∉ rules.flatMap Prod.snd := by
    rw [List.mem_flatMap]
    rintro ⟨rule, hrule, hmem⟩
    exact h rule hrule hmem
  generalize rules.flatMap Prod.snd = read at hunused
  induction read using List.reverseRecOn with
  | nil => simp [terminalNames]
  | append_singleton read name ih =>
      rw [List.mem_append, not_or, List.mem_singleton] at hunused
      rw [terminalNames_append_singleton]
      split
      · exact ih hunused.1
      · next hnew =>
        refine List.nodup_append.mpr ⟨ih hunused.1, by simp, ?_⟩
        intro other hother last hlast heq
        rw [List.mem_singleton.mp hlast] at heq
        rw [heq, mem_terminalNames] at hother
        rcases hother with rfl | hother
        · exact hunused.2 rfl
        · exact hnew (Or.inl hother.1)

namespace NamedRule

variable {heads : List String} {rules : List NamedRule} {head : String}

theorem toList_text_cons (head : String) (heads : List String) (rules : List NamedRule) :
    (text (head :: heads) rules).toList =
      (lineText head (bodiesOf rules head)).toList ++ '\n' :: (text heads rules).toList := by
  simp [text, String.toList_join]

/-- The only blank character on a printed line is the space. -/
theorem not_mem_lineText {c d : Char} {bodies : List (List String)} (hblank : isBlank c = false)
    (hnames : ∀ body ∈ bodies, ∀ name ∈ body, IsBodyName name) (hd : isBlank d = true)
    (hne : d ≠ ' ') : d ∉ (lineText c.toString bodies).toList := by
  rw [toList_lineText, alternatives]
  intro hmem
  simp only [List.mem_cons] at hmem
  rcases hmem with rfl | rfl | rfl | rfl | rfl | hmem
  · rw [hblank] at hd
    contradiction
  · contradiction
  · contradiction
  · contradiction
  · contradiction
  · rcases mem_intercalate hmem with hmem | ⟨piece, hpiece, hmem⟩
    · simp only [List.mem_cons, List.not_mem_nil, or_false] at hmem
      rcases hmem with rfl | rfl | rfl
      · contradiction
      · contradiction
      · contradiction
    · obtain ⟨body, hbody, rfl⟩ := List.mem_map.mp hpiece
      exact hne ((mem_bodyChars (hnames body hbody) hmem).2 hd)

namespace IsPrintable

theorem isBodyName_of_mem (h : IsPrintable heads rules) :
    ∀ body ∈ bodiesOf rules head, ∀ name ∈ body, IsBodyName name :=
  fun _ hbody => h.isBodyName _ (mem_bodiesOf_iff.mp hbody)

/-- The lines of printed heads are read as these heads with their bodies. -/
theorem exists_ofLines (h : IsPrintable heads rules) {printed : List String}
    (hprinted : ∀ head ∈ printed, head ∈ heads) (first : Nat) :
    ∃ productions,
      Production.ofLines ((lines (text printed rules).toList).zipIdx first) = .ok productions ∧
      productions.map Production.headName = printed ∧
      productions.flatMap Production.rules = gathered printed rules := by
  induction printed generalizing first with
  | nil => exact ⟨[], rfl, rfl, rfl⟩
  | cons head printed ih =>
      rw [List.forall_mem_cons] at hprinted
      obtain ⟨productions, hlines, hheads, hrules⟩ := ih hprinted.2 (first + 1)
      have hne := h.bodies_ne_nil head hprinted.1
      obtain ⟨c, rfl, hblank, hdollar⟩ := h.exists_char head hprinted.1
      have hnames : ∀ body ∈ bodiesOf rules c.toString, ∀ name ∈ body, IsBodyName name :=
        h.isBodyName_of_mem
      have hnewline := not_mem_lineText hblank hnames (d := '\n') rfl (by decide)
      have hreturn := not_mem_lineText hblank hnames (d := '\r') rfl (by decide)
      have hline := Production.ofLine?_lineText hblank hdollar hne hnames first
      refine ⟨⟨c, alternatives (bodiesOf rules c.toString)⟩ :: productions, ?_, ?_, ?_⟩
      · rw [toList_text_cons, lines_append_newline hnewline, dropReturn_of_not_mem hreturn,
          List.zipIdx_cons, Production.ofLines, hline]
        simp only [bind, Except.bind, hlines]
        rfl
      · rw [List.map_cons, hheads]
        rfl
      · rw [List.flatMap_cons, hrules, Production.rules, bodies_alternatives c hnames hne]
        rfl

/-- Gathering rules changes no more than the order of the terminals. -/
theorem mem_terminalNames_gathered (h : IsPrintable heads rules) {name : String} :
    name ∈ terminalNames heads ((gathered heads rules).flatMap Prod.snd) ↔
      name ∈ terminalNames heads (rules.flatMap Prod.snd) := by
  have hread : name ∈ (gathered heads rules).flatMap Prod.snd ↔ name ∈ rules.flatMap Prod.snd := by
    rw [List.mem_flatMap, List.mem_flatMap]
    constructor
    · rintro ⟨⟨head, body⟩, hrule, hname⟩
      exact ⟨(head, body), (mem_gathered_iff.mp hrule).2, hname⟩
    · rintro ⟨⟨head, body⟩, hrule, hname⟩
      exact ⟨(head, body), mem_gathered_iff.mpr ⟨h.head_mem _ hrule, hrule⟩, hname⟩
  rw [mem_terminalNames, mem_terminalNames, hread]

/-- The gathered rules can be added if the rules can. -/
theorem canAdd_gathered (h : IsPrintable heads rules) (hadd : CanAdd heads rules) :
    CanAdd heads (gathered heads rules) := by
  have hsubset : gathered heads rules ⊆ rules := fun _ hrule => (mem_gathered_iff.mp hrule).2
  have hnodup := nodup_gathered h.heads_nodup h.rules_nodup
  have hunused : ∀ rule ∈ gathered heads rules, endOfInputName ∉ rule.2 := fun rule hrule =>
    hadd.endOfInput_unused rule (hsubset hrule)
  refine ⟨hunused, hnodup, ?_, ?_⟩
  · have hperm := (List.perm_ext_iff_of_nodup (nodup_terminalNames heads hunused)
      (nodup_terminalNames heads hadd.endOfInput_unused)).mpr fun _ => h.mem_terminalNames_gathered
    rw [hperm.length_eq]
    exact hadd.terminals_fit
  · exact Nat.lt_of_le_of_lt (List.subperm_of_subset hnodup hsubset).length_le hadd.rules_fit

/-- What has been printed is read as the same rules, gathered by their heads. -/
theorem exists_ofText (h : IsPrintable heads rules) (hne : heads ≠ []) {d : Definition}
    (hheads : Definition.empty.declareHeads heads = .ok d) (hvalues : d.nonterminals.values = heads)
    (hadd : CanAdd heads rules) :
    ∃ g, Grammar.ofText (text heads rules) = .ok g ∧ g.nonterminals = d.nonterminals ∧
      g.Lists (gathered heads rules) := by
  obtain ⟨productions, hlines, rfl, hrules⟩ := h.exists_ofLines (fun _ hmem => hmem) 1
  have hgathered := h.canAdd_gathered hadd
  rw [← hrules, ← hvalues] at hgathered
  rw [← hrules]
  obtain ⟨g, hg, hnonterminals⟩ :=
    Grammar.exists_ofProductions (by simpa using hne) hheads hgathered
  refine ⟨g, ?_, hnonterminals, (Grammar.lists_of_ofProductions hg).1⟩
  rw [Grammar.ofText, hlines]
  exact hg

end IsPrintable

end NamedRule

/-! ## The text of a grammar that has been read -/

namespace Grammar

variable {g : Grammar} {text : String}

/-- A grammar that has been read has rules that can be printed. -/
theorem exists_isPrintable_of_ofText (hg : ofText text = .ok g) :
    ∃ rules, g.Lists rules ∧ NamedRule.IsPrintable g.nonterminals.values rules ∧
      ∃ d, Definition.empty.declareHeads g.nonterminals.values = .ok d ∧
        d.nonterminals = g.nonterminals := by
  have hnames := (isPlain_of_ofText hg).names_nodup
  obtain ⟨productions, hlines, hproductions⟩ := exists_of_bind_eq_ok hg
  obtain ⟨hlists, hvalues, hheads⟩ := lists_of_ofProductions hproductions
  refine ⟨_, hlists, ?_, hheads⟩
  have hlines : ∀ production ∈ productions, isBlank production.head = false ∧
      production.head ≠ '$' ∧ HasNoArrow production.alternatives := by
    intro production hmem
    obtain ⟨line, hline⟩ := (Production.areWrittenOn_of_ofLines hlines).1.exists_isWrittenOn hmem
    exact hline.canBePrinted
  have hhead : ∀ head, head ∈ g.nonterminals.values ↔
      ∃ production ∈ productions, production.headName = head := by
    intro head
    rw [hvalues, mem_newHeads_nil, List.mem_map]
  refine ⟨(List.nodup_append.mp hnames).2.1, hlists.rules_nodup, ?_, ?_, ?_, ?_⟩
  · intro head hmem
    obtain ⟨production, hproduction, rfl⟩ := (hhead head).mp hmem
    obtain ⟨hblank, hdollar, -⟩ := hlines production hproduction
    exact ⟨production.head, rfl, hblank, hdollar⟩
  · intro head hmem
    obtain ⟨production, hproduction, rfl⟩ := (hhead head).mp hmem
    obtain ⟨body, hbody⟩ := List.exists_mem_of_ne_nil _ production.bodies_ne_nil
    refine List.ne_nil_of_mem (NamedRule.mem_bodiesOf_iff.mpr ?_) (a := body)
    exact Production.mem_flatMap_rules.mpr ⟨production, hproduction, rfl, hbody⟩
  · intro rule hmem
    obtain ⟨production, hproduction, hname, -⟩ := Production.mem_flatMap_rules.mp hmem
    exact (hhead rule.1).mpr ⟨production, hproduction, hname⟩
  · intro rule hmem name hname
    obtain ⟨production, hproduction, -, hbody⟩ := Production.mem_flatMap_rules.mp hmem
    refine Production.isBodyName_of_mem (hlines production hproduction).2.2 hbody hname ?_
    rintro rfl
    exact hlists.endOfInput_unused rule hmem hname

/-- The text of every grammar that is read from text is read as a grammar with the same
nonterminals, the same start symbol, the same bodies for each nonterminal and the same names
of terminals, and this grammar has the same text. -/
theorem exists_ofText_of_text? (hg : ofText text = .ok g) :
    ∃ printed g', g.text? = some printed ∧ ofText printed = .ok g' ∧
      g'.nonterminals = g.nonterminals ∧ g'.start = g.start ∧
      (∀ n ∈ g.nonterminals.keys, ∃ bodies,
        g.bodyNames? n = some bodies ∧ g'.bodyNames? n = some bodies) ∧
      (∀ name, name ∈ g'.terminals.values ↔ name ∈ g.terminals.values) ∧
      g'.text? = some printed := by
  obtain ⟨rules, hlists, hprintable, d, hheads, hnonterminals⟩ := exists_isPrintable_of_ofText hg
  have hwf := (isPlain_of_ofText hg).toWellFormed
  have hne : g.nonterminals.values ≠ [] := by
    obtain ⟨name, hname⟩ := OrderedMap.mem_keys_iff.mp hwf.start_declared
    exact List.ne_nil_of_mem (OrderedMap.mem_values_of_get? hname)
  obtain ⟨g', hg', hsame, hlists'⟩ := hprintable.exists_ofText hne hheads
    (congrArg OrderedMap.values hnonterminals) hlists.toCanAdd
  rw [hnonterminals] at hsame
  have hwf' := (isPlain_of_ofText hg').toWellFormed
  have hbodies : ∀ head ∈ g.nonterminals.values,
      NamedRule.bodiesOf (NamedRule.gathered g.nonterminals.values rules) head =
        NamedRule.bodiesOf rules head :=
    fun head => NamedRule.bodiesOf_gathered hprintable.heads_nodup
  refine ⟨_, g', hwf.text?_eq hlists hprintable.bodies_ne_nil, hg', hsame, ?_, ?_, ?_, ?_⟩
  · have hfirst := hlists'.start_first
    rw [hsame, hlists.start_first] at hfirst
    exact (Option.some.inj hfirst).symm
  · intro n hn
    obtain ⟨head, hhead⟩ := OrderedMap.mem_keys_iff.mp hn
    refine ⟨_, hwf.bodyNames?_eq hlists hhead, ?_⟩
    rw [hwf'.bodyNames?_eq hlists' (hsame ▸ hhead),
      hbodies head (OrderedMap.mem_values_of_get? hhead)]
  · intro name
    rw [hlists'.terminals_eq, hlists.terminals_eq, hsame]
    exact hprintable.mem_terminalNames_gathered
  · rw [hwf'.text?_eq hlists', hsame, NamedRule.text_gathered hprintable.heads_nodup]
    intro head hhead
    rw [hsame] at hhead
    rw [hbodies head hhead]
    exact hprintable.bodies_ne_nil head hhead

/-- Here `|` and `-` are heads, `>` is a terminal, and the rules of `S` stand on two lines;
printing gathers them, and the terminals are then declared in another order. -/
theorem exists_ofText_of_text?_gathered :
    ∃ g g', ofText "S -> a S | epsilon\n| -> b c\nS -> - > b\n- -> epsilon" = .ok g ∧
      ofText "S -> a S | epsilon | - > b\n| -> b c\n- -> epsilon\n" = .ok g' ∧
      g'.nonterminals = g.nonterminals ∧ g'.start = g.start ∧
      (∀ n ∈ g.nonterminals.keys, ∃ bodies,
        g.bodyNames? n = some bodies ∧ g'.bodyNames? n = some bodies) ∧
      (∀ name, name ∈ g'.terminals.values ↔ name ∈ g.terminals.values) ∧
      g.terminals.values = ["$", "a", "b", "c", ">"] ∧
      g'.terminals.values = ["$", "a", ">", "b", "c"] := by
  have hcomputed : (ofText "S -> a S | epsilon\n| -> b c\nS -> - > b\n- -> epsilon").toOption.map
      (fun g => (g.text?, g.terminals.values)) =
      some (some "S -> a S | epsilon | - > b\n| -> b c\n- -> epsilon\n",
        ["$", "a", "b", "c", ">"]) := by decide +kernel
  have hcomputed' : (ofText "S -> a S | epsilon | - > b\n| -> b c\n- -> epsilon\n").toOption.map
      (fun g => g.terminals.values) = some ["$", "a", ">", "b", "c"] := by decide +kernel
  obtain ⟨g, hg, hcomputed⟩ := exists_of_ofText hcomputed
  obtain ⟨htext, hterminals⟩ := Prod.mk.inj hcomputed
  obtain ⟨printed, g', hprinted, hg', hsame, hstart, hbodies, hnames, -⟩ :=
    exists_ofText_of_text? hg
  obtain rfl := Option.some.inj (htext.symm.trans hprinted)
  obtain ⟨g'', hg'', hterminals'⟩ := exists_of_ofText hcomputed'
  obtain rfl := Except.ok.inj (hg'.symm.trans hg'')
  exact ⟨g, g', hg, hg', hsame, hstart, hbodies, hnames, hterminals, hterminals'⟩

end Grammar

end GrammarAnalysis

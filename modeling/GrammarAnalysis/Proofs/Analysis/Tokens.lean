import GrammarAnalysis.Analysis.Words
import GrammarAnalysis.Proofs.Analysis.Words
import GrammarAnalysis.Proofs.Grammar.Operations
import GrammarAnalysis.Proofs.Grammar.RoundTrip
import GrammarAnalysis.Proofs.Regular.Automaton

/-!
# Printed words are found again

The terminals of a grammar that is read from text, apart from the end of input, have
names that are found again when they stand on a line: they are not empty, hold no blank,
and no two terminals share one (`Grammar.isBodyName_of_ofText`,
`Grammar.WellFormed.terminalNamed?_eq`).  So the words of a text in which every word is a
line of names are those that were written (`Analysis.words_written`).  The end of input is
never found, whatever the text is.

The analysis of a grammar that is read from text never fails, since its augmentation and,
if it is regular, its automaton exist.
-/

namespace GrammarAnalysis

open Text

/-! ## Lines without blanks at their ends -/

namespace Text

variable {text : List Char} {pieces : List (List Char)}

/-- Whether a text is a line that is kept as it is: there is something on it, nothing that
ends a line, and no blank at its ends. -/
structure IsTrimmedLine (line : List Char) : Prop where
  ne_nil : line ≠ []
  no_newline : '\n' ∉ line
  no_return : '\r' ∉ line
  trim_eq : trim line = line

theorem trim_eq_self (hfirst : ∀ c ∈ text.head?, isBlank c = false)
    (hlast : ∀ c ∈ text.getLast?, isBlank c = false) : trim text = text := by
  have hkept : ∀ part : List Char, (∀ c ∈ part.head?, isBlank c = false) →
      part.dropWhile isBlank = part := by
    intro part hpart
    cases part with
    | nil => rfl
    | cons c part => exact List.dropWhile_cons_of_neg (by simp [hpart c rfl])
  rw [trim, hkept text hfirst, hkept text.reverse (by simpa using hlast), List.reverse_reverse]

/-- Joined pieces start and end like pieces. -/
theorem exists_ends_intercalate (separator : List Char) (hpieces : pieces ≠ [])
    (hne : ∀ piece ∈ pieces, piece ≠ []) :
    (∃ piece ∈ pieces, (separator.intercalate pieces).head? = piece.head?) ∧
      ∃ piece ∈ pieces, (separator.intercalate pieces).getLast? = piece.getLast? := by
  induction pieces with
  | nil => contradiction
  | cons piece others ih =>
      rw [List.forall_mem_cons] at hne
      cases others with
      | nil => simp
      | cons other others =>
          obtain ⟨-, last, hlast, hends⟩ := ih (List.cons_ne_nil _ _) hne.2
          have hrest : separator.intercalate (other :: others) ≠ [] := by
            rw [ne_eq, ← List.getLast?_eq_none_iff, hends, List.getLast?_eq_none_iff]
            exact hne.2 last hlast
          rw [List.intercalate_cons_cons]
          refine ⟨⟨piece, List.mem_cons_self, ?_⟩, last, List.mem_cons_of_mem _ hlast, ?_⟩
          · rw [List.append_assoc, List.head?_append_of_ne_nil _ hne.1]
          · rw [List.getLast?_append_of_ne_nil _ hrest, hends]

theorem isTrimmedLine_intercalate (hpieces : pieces ≠ []) (hne : ∀ piece ∈ pieces, piece ≠ [])
    (h : ∀ piece ∈ pieces, ∀ c ∈ piece, isBlank c = false) :
    IsTrimmedLine ([' '].intercalate pieces) := by
  obtain ⟨⟨first, hfirst, hhead⟩, last, hlast, hend⟩ :=
    exists_ends_intercalate [' '] hpieces hne
  have hchars : ∀ c, isBlank c = true → c ≠ ' ' → c ∉ [' '].intercalate pieces := by
    intro c hblank hspace hmem
    rcases mem_intercalate hmem with hmem | ⟨piece, hpiece, hmem⟩
    · exact hspace (List.mem_singleton.mp hmem)
    · rw [h piece hpiece c hmem] at hblank
      contradiction
  refine ⟨?_, hchars '\n' rfl (by decide), hchars '\r' rfl (by decide), trim_eq_self ?_ ?_⟩
  · rw [ne_eq, ← List.head?_eq_none_iff, hhead, List.head?_eq_none_iff]
    exact hne first hfirst
  · intro c hc
    rw [hhead] at hc
    exact h first hfirst c (List.mem_of_mem_head? hc)
  · intro c hc
    rw [hend] at hc
    exact h last hlast c (List.mem_of_getLast? hc)

theorem lines_of_not_mem (h : '\n' ∉ text) (hne : text ≠ []) : lines text = [text] := by
  simp [lines, splitWhere_of_not_mem h, hne]

/-- The lines one below the other; the last one may be ended like the others. -/
def below (ended : Bool) (rows : List (List Char)) : List Char :=
  ['\n'].intercalate rows ++ if ended then ['\n'] else []

/-- Lines that stand one below the other are found again. -/
theorem filter_map_trim_lines_below {rows : List (List Char)}
    (h : ∀ line ∈ rows, IsTrimmedLine line) (ended : Bool) :
    ((lines (below ended rows)).map trim).filter (fun line => !line.isEmpty) = rows := by
  induction rows with
  | nil => cases ended <;> rfl
  | cons line rows ih =>
      rw [List.forall_mem_cons] at h
      obtain ⟨hline, hrows⟩ := h
      cases rows with
      | nil =>
          have hlines : lines (below ended [line]) = [line] := by
            rw [below, List.intercalate_singleton]
            cases ended with
            | false =>
                rw [if_neg (by decide), List.append_nil]
                exact lines_of_not_mem hline.no_newline hline.ne_nil
            | true =>
                rw [if_pos rfl, lines_append_newline hline.no_newline,
                  dropReturn_of_not_mem hline.no_return]
                rfl
          simp [hlines, hline.trim_eq, hline.ne_nil]
      | cons other rows =>
          have hshape : below ended (line :: other :: rows) =
              line ++ '\n' :: below ended (other :: rows) := by
            simp [below, List.intercalate_cons_cons]
          rw [hshape, lines_append_newline hline.no_newline,
            dropReturn_of_not_mem hline.no_return, List.map_cons, hline.trim_eq,
            List.filter_cons_of_pos (by simpa using hline.ne_nil), ih hrows]

end Text

/-! ## Names of terminals -/

namespace Grammar

variable {g : Grammar} {text name : String} {t : TerminalId}

/-- The names of the terminals of a grammar that is read from text can stand on a line. -/
theorem isBodyName_of_ofText (hg : ofText text = .ok g) (h : g.terminals.get? t = some name)
    (hne : t ≠ endOfInput) : IsBodyName name := by
  have hwf := (isPlain_of_ofText hg).toWellFormed
  obtain ⟨rules, hlists, hprintable, -⟩ := exists_isPrintable_of_ofText hg
  have hname := OrderedMap.mem_values_of_get? h
  rw [hlists.terminals_eq, mem_terminalNames] at hname
  rcases hname with rfl | ⟨hread, -⟩
  · have hterminals := (List.nodup_append.mp hwf.names_nodup).1
    exact absurd (OrderedMap.eq_of_get?_eq hterminals h hwf.endOfInput_named) hne
  · obtain ⟨rule, hrule, hbody⟩ := List.mem_flatMap.mp hread
    exact hprintable.isBodyName rule hrule name hbody

/-- A terminal is found by its name. -/
theorem WellFormed.terminalNamed?_eq (hg : g.WellFormed) (h : g.terminals.get? t = some name)
    (hne : t ≠ endOfInput) : g.terminalNamed? name = some t := by
  have hentry := OrderedMap.get?_eq_some_iff.mp h
  cases hfound : g.terminals.entries.find? fun entry =>
      entry.1 ≠ endOfInput && entry.2 = name with
  | none =>
      rw [List.find?_eq_none] at hfound
      exact absurd (by simp [hne]) (hfound _ hentry)
  | some entry =>
      have hname := List.find?_some hfound
      rw [Bool.and_eq_true, decide_eq_true_eq, decide_eq_true_eq] at hname
      have hsame : g.terminals.get? entry.1 = some name := by
        rw [← hname.2]
        exact OrderedMap.get?_eq_some_iff.mpr (List.mem_of_find?_eq_some hfound)
      rw [terminalNamed?, GrammarAnalysis.terminalNamed?, hfound, Option.map_some,
        OrderedMap.eq_of_get?_eq (List.nodup_append.mp hg.names_nodup).1 hsame h]

end Grammar

/-! ## Writing words -/

namespace Word

variable {g : Grammar} {text : String}

/-- The names of the tokens of a word, with spaces between them. -/
def line? (g : Grammar) (tokens : List TerminalId) : Option String :=
  (tokens.mapM g.terminals.get?).map fun names => " ".intercalate names

/-- The lines one below the other; the last one may be ended like the others. -/
def belowText (ended : Bool) (rows : List String) : String :=
  "\n".intercalate rows ++ if ended then "\n" else ""

/-- Whether a word can be written: it has a token, and its tokens are terminals other than
the end of input. -/
structure IsWritable (g : Grammar) (tokens : List TerminalId) : Prop where
  ne_nil : tokens ≠ []
  declared : ∀ t ∈ tokens, t ∈ g.terminals.keys
  ne_endOfInput : ∀ t ∈ tokens, t ≠ endOfInput

/-- Names of terminals are resolved to these terminals, and can stand on a line. -/
theorem resolve_of_forall₂ (hg : Grammar.ofText text = .ok g) {tokens : List TerminalId}
    {names : List String}
    (hnames : List.Forall₂ (fun t name => g.terminals.get? t = some name) tokens names)
    (hend : ∀ t ∈ tokens, t ≠ endOfInput) :
    resolve g names = .ok tokens ∧ ∀ name ∈ names, IsBodyName name := by
  induction hnames with
  | nil => exact ⟨rfl, by simp⟩
  | cons hname _ ih =>
      rw [List.forall_mem_cons] at hend
      obtain ⟨hresolve, hbody⟩ := ih hend.2
      refine ⟨?_, List.forall_mem_cons.mpr ⟨Grammar.isBodyName_of_ofText hg hname hend.1, hbody⟩⟩
      rw [resolve, (Grammar.isPlain_of_ofText hg).toWellFormed.terminalNamed?_eq hname hend.1]
      simp only [hresolve]
      rfl

/-- A word that can be written has a line, on which it is found again. -/
theorem IsWritable.exists_line (hg : Grammar.ofText text = .ok g) {tokens : List TerminalId}
    (h : IsWritable g tokens) :
    ∃ line, line? g tokens = some line ∧ IsTrimmedLine line.toList ∧
      ofLine g line.toList = recognized line tokens := by
  obtain ⟨names, hread⟩ := exists_mapM fun t ht => OrderedMap.mem_keys_iff.mp (h.declared t ht)
  have hnames := mapM_eq_some_iff.mp hread
  obtain ⟨hresolve, hbody⟩ := resolve_of_forall₂ hg hnames h.ne_endOfInput
  have hne : ∀ piece ∈ names.map String.toList, piece ≠ [] := by
    simpa using fun name hname => (hbody name hname).ne_nil
  have hblank : ∀ piece ∈ names.map String.toList, ∀ c ∈ piece, isBlank c = false := by
    simpa using fun name hname => (hbody name hname).not_blank
  have hline : (" ".intercalate names).toList = [' '].intercalate (names.map String.toList) := by
    rw [String.toList_intercalate]
    rfl
  refine ⟨_, by rw [line?, hread, Option.map_some], ?_, ?_⟩
  · rw [hline]
    refine isTrimmedLine_intercalate ?_ hne hblank
    rw [ne_eq, List.map_eq_nil_iff, ← List.length_eq_zero_iff, ← hnames.length_eq,
      List.length_eq_zero_iff]
    exact h.ne_nil
  · have hwords : (words (" ".intercalate names).toList).map String.ofList = names := by
      rw [hline, words_intercalate hne hblank, List.map_map]
      simp [Function.comp_def]
    rw [ofLine, hwords, hresolve, String.ofList_toList]

/-- Words whose lines stand one below the other are found again. -/
theorem exists_lines (hg : Grammar.ofText text = .ok g) {words : List (List TerminalId)}
    (h : ∀ tokens ∈ words, IsWritable g tokens) (ended : Bool) :
    ∃ rows, words.mapM (line? g) = some rows ∧
      ofText g (belowText ended rows) = List.zipWith recognized rows words := by
  have hrows : ∃ rows, words.mapM (line? g) = some rows ∧
      (∀ line ∈ rows.map String.toList, IsTrimmedLine line) ∧
      (rows.map String.toList).map (ofLine g) = List.zipWith recognized rows words := by
    induction words with
    | nil => exact ⟨[], rfl, by simp, rfl⟩
    | cons tokens words ih =>
        rw [List.forall_mem_cons] at h
        obtain ⟨line, hline, htrimmed, hfound⟩ := h.1.exists_line hg
        obtain ⟨rows, hrows, hall, hothers⟩ := ih h.2
        refine ⟨line :: rows, by simp [List.mapM_cons, hline, hrows], ?_, ?_⟩
        · rw [List.map_cons, List.forall_mem_cons]
          exact ⟨htrimmed, hall⟩
        · rw [List.map_cons, List.map_cons, hfound, hothers, List.zipWith_cons_cons]
  obtain ⟨rows, hread, hall, hfound⟩ := hrows
  refine ⟨rows, hread, ?_⟩
  have hbelow : (belowText ended rows).toList = Text.below ended (rows.map String.toList) := by
    cases ended <;> simp [belowText, Text.below, String.toList_intercalate]
  rw [ofText, hbelow, filter_map_trim_lines_below hall, hfound]

end Word

/-! ## Analyses -/

namespace Grammar

variable {g : Grammar}

theorem IsClosed.exists_regularAutomaton (hg : g.IsClosed) (h : g.isRegular = true) :
    ∃ automata, g.regularAutomaton = .ok automata := by
  obtain ⟨nfa, hnfa, -⟩ :=
    exists_foldlM_addRegularRule (hg.hasStates h) (Nfa.empty g.regularStates.length 0)
  obtain ⟨dfa, hdfa, -⟩ := nfa.exists_toDfa
  refine ⟨⟨nfa, dfa, g.regularStates⟩, ?_⟩
  rw [regularAutomaton, if_pos h]
  simp only [hnfa]
  change (nfa.toDfa >>= _) = _
  rw [hdfa]
  rfl

end Grammar

namespace Analysis

variable {g : Grammar}

theorem exists_whenEnabled {α : Type} {enabled : Bool} {stage : Except AnalysisError α}
    (h : enabled = true → ∃ a, stage = .ok a) :
    ∃ result, whenEnabled enabled stage = .ok result := by
  cases enabled with
  | false => exact ⟨none, rfl⟩
  | true =>
      obtain ⟨a, ha⟩ := h rfl
      exact ⟨some a, by rw [whenEnabled, if_pos rfl, ha]; rfl⟩

/-- A plain grammar has an analysis, whichever stages are run. -/
theorem exists_ofGrammar (hg : g.IsPlain) (stages : Stages) :
    ∃ analysis, ofGrammar g stages = .ok analysis := by
  obtain ⟨a, haccept, -⟩ := hg.exists_isAugmentation
  have haugment : augment g = .ok a := by rw [augment, haccept]
  have hmap : ∀ {β : Type} (f : Grammar → β), ∃ b, (augment g).map f = .ok b := by
    intro β f
    exact ⟨f a, by rw [haugment]; rfl⟩
  obtain ⟨slr1, hslr1⟩ : ∃ result,
      whenEnabled stages.slr1 ((augment g).map ParseTable.slr1) = .ok result :=
    exists_whenEnabled fun _ => hmap _
  obtain ⟨canonical, hcanonical⟩ : ∃ result, whenEnabled (stages.lr1 || stages.lalr1)
      ((augment g).map fun augmented => (augmented, augmented.canonicalAutomaton)) = .ok result :=
    exists_whenEnabled fun _ => hmap _
  obtain ⟨regular, hregular⟩ : ∃ result,
      whenEnabled (stages.regular && g.isRegular) (analyzeRegular g) = .ok result := by
    refine exists_whenEnabled fun h => ?_
    obtain ⟨automata, hautomata⟩ :=
      hg.isClosed.exists_regularAutomaton (Bool.and_eq_true_iff.mp h).2
    exact ⟨_, by rw [analyzeRegular, hautomata]⟩
  rw [ofGrammar, hslr1]
  simp only [bind, Except.bind, hcanonical, hregular]
  exact ⟨_, rfl⟩

/-- A grammar that is read from text has an analysis. If every word has a token and no token is
the end of input, each word has a line of names; and when these lines stand one below the other,
the words of this text are the given ones, in order. No text has a word with the end of input.
-/
theorem words_written {text : String} (hg : Grammar.ofText text = .ok g) (stages : Stages) :
    ∃ analysis, ofGrammar g stages = .ok analysis ∧
      (∀ words : List (List TerminalId), (∀ tokens ∈ words, Word.IsWritable g tokens) →
        ∀ ended, ∃ rows, words.mapM (Word.line? g) = some rows ∧
          analysis.words (Word.belowText ended rows) =
            List.zipWith Word.recognized rows words) ∧
      ∀ input line tokens, Word.recognized line tokens ∈ analysis.words input →
        endOfInput ∉ tokens := by
  have hplain := Grammar.isPlain_of_ofText hg
  obtain ⟨analysis, hanalysis⟩ := exists_ofGrammar hplain stages
  have hgrammar := (hasTablesOf_of_ofGrammar hplain hanalysis).grammar_eq
  refine ⟨analysis, hanalysis, fun words hwords ended => ?_, fun input line tokens hfound => ?_⟩
  · obtain ⟨rows, hrows, hfound⟩ := Word.exists_lines hg hwords ended
    refine ⟨rows, hrows, ?_⟩
    rw [Analysis.words, hgrammar, hfound]
  · exact Word.endOfInput_not_mem hfound

/-- The words of a text with two lines, of which the second is not ended. -/
theorem words_written_nested :
    ∃ g analysis, Grammar.ofText "S -> ( S ) S | epsilon\n" = .ok g ∧
      ofGrammar g ⟨true, true, true, true, true, true⟩ = .ok analysis ∧
      analysis.words "( )\n( ( ) )" =
        [.recognized "( )" [1, 2], .recognized "( ( ) )" [1, 1, 2, 2]] := by
  have hcomputed : (Grammar.ofText "S -> ( S ) S | epsilon\n").toOption.map (fun g =>
      (g.terminals.keys, [[1, 2], [1, 1, 2, 2]].mapM (Word.line? g))) =
        some ([0, 1, 2], some ["( )", "( ( ) )"]) := by
    decide +kernel
  obtain ⟨g, hg, hcomputed⟩ := Grammar.exists_of_ofText hcomputed
  obtain ⟨hkeys, hlines⟩ := Prod.mk.inj hcomputed
  obtain ⟨analysis, hanalysis, hwords, -⟩ := words_written hg ⟨true, true, true, true, true, true⟩
  have hwritable : ∀ tokens ∈ [[1, 2], [1, 1, 2, 2]], Word.IsWritable g tokens := by
    intro tokens htokens
    simp only [List.mem_cons, List.not_mem_nil, or_false] at htokens
    rcases htokens with rfl | rfl
    · exact ⟨by decide, by rw [hkeys]; decide, by decide⟩
    · exact ⟨by decide, by rw [hkeys]; decide, by decide⟩
  obtain ⟨rows, hrows, hfound⟩ := hwords _ hwritable false
  obtain rfl := Option.some.inj (hlines.symm.trans hrows)
  refine ⟨g, analysis, hg, hanalysis, ?_⟩
  exact hfound

end Analysis

end GrammarAnalysis

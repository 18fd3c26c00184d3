import GrammarAnalysis.Dot

/-!
# Drawings can be read back

No two drawings have the same text (`DotGraph.text_unambiguous`).  What is written for a
label, a node or an edge ends by itself: it cannot go on in two ways, whatever follows.
For a label this is due to the escapes.  A quote in a label follows a backslash, and a
backslash in a label is never the one in front of the closing quote, so a reader that stops
at the first quote without a backslash stops at the end of the label.  Numbers end where
there is no digit.

The lines of nodes and edges are not counted in the text, but the line behind them starts
differently.  No label contains the end of a line, so there are as many lines as there are
nodes and edges, and six more.
-/

namespace GrammarAnalysis

/-! ## Texts that end by themselves -/

/-- Whether the text of a value tells the value and where the text ends, whatever follows. -/
def EndsByItself {α : Type} (write : α → String) : Prop :=
  ∀ ⦃x y : α⦄ ⦃rest rest' : List Char⦄,
    (write x).toList ++ rest = (write y).toList ++ rest' → x = y ∧ rest = rest'

/-- Any number of texts that end by themselves can be told apart, if what follows does not
start like one more of them. -/
theorem EndsByItself.append_inj {α : Type} {write : α → String} (h : EndsByItself write)
    {xs ys : List α} {rest rest' : List Char}
    (hrest : ∀ x more, (write x).toList ++ more ≠ rest)
    (hrest' : ∀ x more, (write x).toList ++ more ≠ rest')
    (heq : (String.join (xs.map write)).toList ++ rest =
      (String.join (ys.map write)).toList ++ rest') : xs = ys ∧ rest = rest' := by
  simp only [String.toList_join, List.flatMap_map] at heq
  induction xs generalizing ys with
  | nil =>
      cases ys with
      | nil => exact ⟨rfl, heq⟩
      | cons y ys =>
          rw [List.flatMap_cons, List.append_assoc] at heq
          exact absurd heq.symm (hrest y _)
  | cons x xs ih =>
      cases ys with
      | nil =>
          rw [List.flatMap_cons, List.append_assoc] at heq
          exact absurd heq (hrest' x _)
      | cons y ys =>
          rw [List.flatMap_cons, List.flatMap_cons, List.append_assoc, List.append_assoc] at heq
          obtain ⟨rfl, hbehind⟩ := h heq
          obtain ⟨rfl, hsame⟩ := ih hbehind
          exact ⟨rfl, hsame⟩

/-! ## Numbers -/

theorem isDigit_of_mem_toString {n : Nat} {c : Char} (h : c ∈ (toString n).toList) :
    c.isDigit = true := by
  have hmem : c ∈ Nat.toDigits 10 n := by simpa using h
  exact Nat.isDigit_of_mem_toDigits (by decide) (by decide) hmem

theorem toString_nat_inj {n m : Nat} (h : (toString n).toList = (toString m).toList) :
    n = m := by
  simpa using congrArg (fun digits => Nat.ofDigitChars 10 digits 0) h

/-- A number ends in front of a character that is no digit. -/
theorem toString_append_inj {n m : Nat} {rest rest' : List Char}
    (h : (toString n).toList ++ rest = (toString m).toList ++ rest')
    (hrest : rest.takeWhile Char.isDigit = []) (hrest' : rest'.takeWhile Char.isDigit = []) :
    n = m ∧ rest = rest' := by
  have hdigits : ∀ (k : Nat) {more : List Char}, more.takeWhile Char.isDigit = [] →
      ((toString k).toList ++ more).takeWhile Char.isDigit = (toString k).toList := by
    intro k more hmore
    rw [List.takeWhile_append_of_pos fun _ => isDigit_of_mem_toString, hmore, List.append_nil]
  obtain rfl : n = m := by
    apply toString_nat_inj
    rw [← hdigits n hrest, h, hdigits m hrest']
  exact ⟨rfl, List.append_cancel_left h⟩

theorem count_newline_toDigits (n : Nat) : (Nat.toDigits 10 n).count '\n' = 0 := by
  rw [List.count_eq_zero]
  intro h
  have hdigit := Nat.isDigit_of_mem_toDigits (by decide) (by decide) h
  contradiction

namespace DotGraph

/-! ## Labels -/

/-- The character behind a backslash, as it is meant. -/
def unescape : Char → Char
  | 'l' => '\n'
  | c => c

/-- Reads a label up to the first quote that no backslash escapes, and returns it with what
follows the quote. -/
def readEscaped : List Char → Option (List Char × List Char)
  | [] => none
  | '"' :: rest => some ([], rest)
  | '\\' :: c :: rest => (readEscaped rest).map fun read => (unescape c :: read.1, read.2)
  | c :: rest => (readEscaped rest).map fun read => (c :: read.1, read.2)

/-- Reads a label in quotes, and returns it with what follows. -/
def readQuoted : List Char → Option (String × List Char)
  | '"' :: rest => (readEscaped rest).map fun read => (String.ofList read.1, read.2)
  | _ => none

theorem readEscaped_flatMap_escapeChar (label rest : List Char) :
    readEscaped (label.flatMap escapeChar ++ '"' :: rest) = some (label, rest) := by
  induction label with
  | nil => rfl
  | cons c label ih =>
      rw [List.flatMap_cons, List.append_assoc]
      fun_cases escapeChar c with
      | case1 => simp [readEscaped, ih, unescape]
      | case2 => simp [readEscaped, ih, unescape]
      | case3 => simp [readEscaped, ih, unescape]
      | case4 _ hquote hbackslash hnewline =>
          rw [List.singleton_append, readEscaped, ih, Option.map_some]
          · exact hquote
          · exact fun _ _ h _ => hbackslash h

theorem toList_quoted (label : String) :
    (quoted label).toList = '"' :: (label.toList.flatMap escapeChar ++ ['"']) := by
  simp [quoted]

/-- A label in quotes is read back, whatever it contains and whatever follows it. -/
theorem readQuoted_quoted (label : String) (rest : List Char) :
    readQuoted ((quoted label).toList ++ rest) = some (label, rest) := by
  rw [toList_quoted, List.cons_append, List.append_assoc, List.singleton_append, readQuoted,
    readEscaped_flatMap_escapeChar, Option.map_some, String.ofList_toList]

theorem endsByItself_quoted : EndsByItself quoted := by
  intro label label' rest rest' h
  have hread := readQuoted_quoted label rest
  rw [h, readQuoted_quoted, Option.some.injEq, Prod.mk.injEq] at hread
  exact ⟨hread.1.symm, hread.2.symm⟩

theorem newline_not_mem_quoted (label : String) : '\n' ∉ (quoted label).toList := by
  have hescape : ∀ c, '\n' ∉ escapeChar c := by
    intro c
    fun_cases escapeChar c with
    | case1 => decide
    | case2 => decide
    | case3 => decide
    | case4 _ hquote hbackslash hnewline => simpa using Ne.symm hnewline
  simp [toList_quoted, hescape]

/-! ## Lines -/

theorem style_append_inj {isFinal isFinal' : Bool} {rest rest' : List Char}
    (h : (if isFinal then finalStyle else "").toList ++ ("];\n".toList ++ rest) =
      (if isFinal' then finalStyle else "").toList ++ ("];\n".toList ++ rest')) :
    isFinal = isFinal' ∧ rest = rest' := by
  cases isFinal <;> cases isFinal' <;> simp [finalStyle] at h ⊢
  · exact h
  · exact h

theorem endsByItself_nodeLine : EndsByItself nodeLine := by
  rintro ⟨id, label, isFinal⟩ ⟨id', label', isFinal'⟩ rest rest' h
  simp only [nodeLine, String.toList_append, List.append_assoc, List.append_cancel_left_eq] at h
  obtain ⟨rfl, hlabel⟩ := toString_append_inj h (by simp) (by simp)
  rw [List.append_cancel_left_eq] at hlabel
  obtain ⟨rfl, hstyle⟩ := endsByItself_quoted hlabel
  obtain ⟨rfl, hrest⟩ := style_append_inj hstyle
  exact ⟨rfl, hrest⟩

theorem endsByItself_edgeLine : EndsByItself edgeLine := by
  rintro ⟨source, target, label⟩ ⟨source', target', label'⟩ rest rest' h
  simp only [edgeLine, String.toList_append, List.append_assoc, List.append_cancel_left_eq] at h
  obtain ⟨rfl, htarget⟩ := toString_append_inj h (by simp) (by simp)
  rw [List.append_cancel_left_eq] at htarget
  obtain ⟨rfl, hlabel⟩ := toString_append_inj htarget (by simp) (by simp)
  rw [List.append_cancel_left_eq] at hlabel
  obtain ⟨rfl, hrest⟩ := endsByItself_quoted hlabel
  rw [List.append_cancel_left_eq] at hrest
  exact ⟨rfl, hrest⟩

theorem count_newline_nodeLine (node : DotNode) : (nodeLine node).toList.count '\n' = 1 := by
  have hlabel := List.count_eq_zero.mpr (newline_not_mem_quoted node.label)
  cases hfinal : node.isFinal <;>
    simp [nodeLine, hfinal, finalStyle, hlabel, count_newline_toDigits]

theorem count_newline_edgeLine (edge : DotEdge) : (edgeLine edge).toList.count '\n' = 1 := by
  have hlabel := List.count_eq_zero.mpr (newline_not_mem_quoted edge.label)
  simp [edgeLine, hlabel, count_newline_toDigits]

theorem count_newline_join {α : Type} {write : α → String}
    (h : ∀ x, (write x).toList.count '\n' = 1) (xs : List α) :
    (String.join (xs.map write)).toList.count '\n' = xs.length := by
  simp [String.toList_join, List.flatMap_map, List.count_flatMap, Function.comp_def, h,
    List.map_const']

/-! ## Drawings -/

theorem text_injective {graph graph' : DotGraph} (h : text graph = text graph') :
    graph = graph' := by
  obtain ⟨nodes, edges, start⟩ := graph
  obtain ⟨nodes', edges', start'⟩ := graph'
  have hlist := congrArg String.toList h
  simp only [text, String.toList_append, List.append_assoc, List.append_cancel_left_eq] at hlist
  -- a node starts with the letter n, the line behind the nodes with the letter s
  obtain ⟨rfl, hstart⟩ := endsByItself_nodeLine.append_inj
    (by simp [nodeLine]) (by simp [nodeLine]) hlist
  rw [List.append_cancel_left_eq] at hstart
  obtain ⟨rfl, hedges⟩ := toString_append_inj hstart (by simp) (by simp)
  rw [List.append_cancel_left_eq] at hedges
  obtain ⟨rfl, -⟩ := endsByItself_edgeLine.append_inj
    (by simp [edgeLine]) (by simp [edgeLine]) hedges
  rfl

/-- There are six lines besides those of the nodes and edges. -/
theorem count_newline_text (graph : DotGraph) :
    (text graph).toList.count '\n' = graph.nodes.length + graph.edges.length + 6 := by
  have hnodes := count_newline_join count_newline_nodeLine graph.nodes
  have hedges := count_newline_join count_newline_edgeLine graph.edges
  have hstart : (toString graph.start).toList.count '\n' = 0 := by
    simpa using count_newline_toDigits graph.start
  have hheader : header.toList.count '\n' = 4 := rfl
  have harrow : "  start -> n".toList.count '\n' = 0 := rfl
  have hstyle : " [style=dashed];\n".toList.count '\n' = 1 := rfl
  have hend : "\x7d\n".toList.count '\n' = 1 := rfl
  simp only [text, String.toList_append, List.count_append, hnodes, hedges, hstart, hheader,
    harrow, hstyle, hend]
  omega

/-- Drawings with the same text have the same nodes, the same edges and the same start, whatever
their labels are. A label in quotes is read back up to the quote that closes it, whatever
follows, and does not end its line; the lines of a text are those of the nodes and edges, and
six more. -/
theorem text_unambiguous :
    (∀ graph graph' : DotGraph, text graph = text graph' → graph = graph') ∧
      (∀ label rest, readQuoted ((quoted label).toList ++ rest) = some (label, rest)) ∧
      (∀ label, '\n' ∉ (quoted label).toList) ∧
      ∀ graph : DotGraph,
        (text graph).toList.count '\n' = graph.nodes.length + graph.edges.length + 6 :=
  ⟨fun _ _ => text_injective, readQuoted_quoted, newline_not_mem_quoted, count_newline_text⟩

/-- The label of the only node of the first drawing tries to look like the two nodes of the
second one. -/
theorem text_unambiguous_imitation :
    text ⟨[⟨0, "\\\"];\n  n1 [label=\"b", false⟩], [], 0⟩ ≠
      text ⟨[⟨0, "\\", false⟩, ⟨1, "b", false⟩], [], 0⟩ := by
  intro h
  have hgraph := text_unambiguous.1 _ _ h
  contradiction

end DotGraph

end GrammarAnalysis

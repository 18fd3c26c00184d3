import GrammarAnalysis.Grammar.Printer
import GrammarAnalysis.Proofs.Grammar.Listing

/-!
# Printed grammars, by names

The printed text of a grammar is determined by the names of its nonterminals and
its rules by names.  Printing gathers the rules of each nonterminal on one line,
so the order of rules with different heads is lost, and nothing else: gathered
rules are the same rules (`mem_gathered_iff`), and each head has the same bodies
in the same order (`bodiesOf_gathered`).
-/

namespace GrammarAnalysis

namespace NamedRule

/-- The bodies of the rules with the given head, in order. -/
def bodiesOf (rules : List NamedRule) (head : String) : List (List String) :=
  (rules.filter fun rule => rule.1 = head).map Prod.snd

/-- The names of a body, separated by blanks. -/
def bodyText (body : List String) : String :=
  if body.isEmpty then Production.epsilonName else " ".intercalate body

/-- The line of a head with its bodies, without the newline. -/
def lineText (head : String) (bodies : List (List String)) : String :=
  head ++ " -> " ++ " | ".intercalate (bodies.map bodyText)

/-- The lines of the heads. -/
def text (heads : List String) (rules : List NamedRule) : String :=
  String.join (heads.map fun head => lineText head (bodiesOf rules head) ++ "\n")

/-- The rules in the order in which they are printed. -/
def gathered (heads : List String) (rules : List NamedRule) : List NamedRule :=
  heads.flatMap fun head => (bodiesOf rules head).map fun body => (head, body)

variable {heads : List String} {rules : List NamedRule} {head : String} {body : List String}

theorem mem_bodiesOf_iff : body ∈ bodiesOf rules head ↔ (head, body) ∈ rules := by
  simp [bodiesOf]

theorem mem_gathered_iff :
    (head, body) ∈ gathered heads rules ↔ head ∈ heads ∧ (head, body) ∈ rules := by
  simp [gathered, mem_bodiesOf_iff]

theorem nodup_bodiesOf (h : rules.Nodup) : (bodiesOf rules head).Nodup := by
  refine List.Nodup.map_on ?_ (h.filter _)
  intro rule hrule rule' hrule' heq
  have hhead := (List.mem_filter.mp hrule).2
  have hhead' := (List.mem_filter.mp hrule').2
  rw [decide_eq_true_eq] at hhead hhead'
  exact Prod.ext (hhead.trans hhead'.symm) heq

theorem nodup_gathered (hheads : heads.Nodup) (hrules : rules.Nodup) :
    (gathered heads rules).Nodup := by
  rw [gathered, List.nodup_flatMap]
  refine ⟨?_, ?_⟩
  · intro head _
    exact (nodup_bodiesOf hrules).map fun body body' h => (Prod.mk.inj h).2
  · refine hheads.imp ?_
    intro head head' hne rule hrule hrule'
    obtain ⟨body, -, rfl⟩ := List.mem_map.mp hrule
    obtain ⟨body', -, heq⟩ := List.mem_map.mp hrule'
    exact hne (Prod.mk.inj heq).1.symm

theorem bodiesOf_append (rules rules' : List NamedRule) (head : String) :
    bodiesOf (rules ++ rules') head = bodiesOf rules head ++ bodiesOf rules' head := by
  simp [bodiesOf]

theorem bodiesOf_map_self (bodies : List (List String)) (head : String) :
    bodiesOf (bodies.map fun body => (head, body)) head = bodies := by
  simp [bodiesOf, List.filter_map, Function.comp_def]

theorem bodiesOf_eq_nil (h : ∀ rule ∈ rules, rule.1 ≠ head) : bodiesOf rules head = [] := by
  simpa [bodiesOf] using fun name body hrule heq => h (name, body) hrule heq

theorem bodiesOf_gathered (hheads : heads.Nodup) (hmem : head ∈ heads) :
    bodiesOf (gathered heads rules) head = bodiesOf rules head := by
  induction heads with
  | nil => contradiction
  | cons first others ih =>
      rw [List.nodup_cons] at hheads
      rw [gathered, List.flatMap_cons, bodiesOf_append]
      rcases List.mem_cons.mp hmem with rfl | hmem
      · -- no later line has this head
        have hothers : bodiesOf (gathered others rules) head = [] := by
          apply bodiesOf_eq_nil
          rintro ⟨name, body⟩ hrule rfl
          exact hheads.1 (mem_gathered_iff.mp hrule).1
        rw [bodiesOf_map_self]
        exact (congrArg _ hothers).trans (List.append_nil _)
      · have hfirst :
            bodiesOf ((bodiesOf rules first).map fun body => (first, body)) head = [] := by
          apply bodiesOf_eq_nil
          intro rule hrule
          obtain ⟨body, -, rfl⟩ := List.mem_map.mp hrule
          rintro rfl
          exact hheads.1 hmem
        rw [hfirst]
        exact ih hheads.2 hmem

theorem text_gathered (hheads : heads.Nodup) :
    text heads (gathered heads rules) = text heads rules := by
  rw [text, text]
  congr 1
  apply List.map_congr_left
  intro head hmem
  rw [bodiesOf_gathered hheads hmem]

end NamedRule

/-! ## Printing a grammar -/

/-- Reading off all values succeeds exactly if it succeeds for each of them. -/
theorem mapM_eq_some_iff {α β : Type} {f : α → Option β} {as : List α} {bs : List β} :
    as.mapM f = some bs ↔ List.Forall₂ (fun a b => f a = some b) as bs := by
  induction as generalizing bs with
  | nil => simp [eq_comm]
  | cons a as ih =>
      rw [List.mapM_cons, List.forall₂_cons_left_iff]
      simp only [bind, Option.bind_eq_some_iff, pure, Option.some.injEq, ← ih]
      constructor
      · rintro ⟨b, hb, bs', hbs', rfl⟩
        exact ⟨b, bs', hb, hbs', rfl⟩
      · rintro ⟨b, bs', hb, hbs', rfl⟩
        exact ⟨b, hb, bs', hbs', rfl⟩

namespace Grammar

variable {g : Grammar} {rules : List NamedRule} {n : NonterminalId} {head : String}

/-- The bodies of a nonterminal, by names. -/
def bodyNames? (g : Grammar) (n : NonterminalId) : Option (List (List String)) :=
  (g.bodiesOf n).mapM fun body => body.mapM g.name?

theorem sentenceText?_eq_some {sentence : List Symbol} {names : List String}
    (h : List.Forall₂ (fun symbol name => g.name? symbol = some name) sentence names) :
    g.sentenceText? sentence = some (NamedRule.bodyText names) := by
  rw [sentenceText?]
  cases h with
  | nil => rfl
  | cons hfirst hrest => rw [if_neg (by simp), mapM_eq_some_iff.mpr (.cons hfirst hrest)]; rfl

theorem WellFormed.forall₂_bodiesOf (hg : g.WellFormed) (h : g.Lists rules)
    (hn : g.nonterminals.get? n = some head) :
    List.Forall₂ (List.Forall₂ fun symbol name => g.name? symbol = some name)
      (g.bodiesOf n) (NamedRule.bodiesOf rules head) := by
  have hbodies :
      g.bodiesOf n = (g.rules.values.filter fun rule => rule.head = n).map Rule.body := by
    simp [bodiesOf, rulesOf, OrderedMap.values, List.filter_map, Function.comp_def]
  rw [hbodies]
  refine List.rel_map (fun rule named hnamed => hnamed.2) (List.rel_filter ?_ h.rules_named)
  intro rule named hnamed
  simp only [decide_eq_true_eq]
  constructor
  · rintro rfl
    exact Option.some.inj (hnamed.1.symm.trans hn)
  · rintro rfl
    exact OrderedMap.eq_of_get?_eq (List.nodup_append.mp hg.names_nodup).2.1 hnamed.1 hn

theorem WellFormed.bodyNames?_eq (hg : g.WellFormed) (h : g.Lists rules)
    (hn : g.nonterminals.get? n = some head) :
    g.bodyNames? n = some (NamedRule.bodiesOf rules head) := by
  rw [bodyNames?, mapM_eq_some_iff]
  exact (hg.forall₂_bodiesOf h hn).imp fun body names hnames => mapM_eq_some_iff.mpr hnames

theorem WellFormed.lineText?_eq (hg : g.WellFormed) (h : g.Lists rules)
    (hn : g.nonterminals.get? n = some head) (hne : NamedRule.bodiesOf rules head ≠ []) :
    g.lineText? n head =
      some (NamedRule.lineText head (NamedRule.bodiesOf rules head) ++ "\n") := by
  have hbodies := hg.forall₂_bodiesOf h hn
  have htexts : (g.bodiesOf n).mapM g.sentenceText? =
      some ((NamedRule.bodiesOf rules head).map NamedRule.bodyText) := by
    rw [mapM_eq_some_iff, List.forall₂_map_right_iff]
    exact hbodies.imp fun body names hnames => sentenceText?_eq_some hnames
  rw [lineText?]
  split
  · next hnil =>
    rw [hnil, List.forall₂_nil_left_iff] at hbodies
    contradiction
  · rw [htexts]
    rfl

/-- If every nonterminal has a rule, the text of the grammar is the one of its rules. -/
theorem WellFormed.text?_eq (hg : g.WellFormed) (h : g.Lists rules)
    (hne : ∀ head ∈ g.nonterminals.values, NamedRule.bodiesOf rules head ≠ []) :
    g.text? = some (NamedRule.text g.nonterminals.values rules) := by
  have hlines : (g.nonterminals.entries.mapM fun entry => g.lineText? entry.1 entry.2) =
      some (g.nonterminals.values.map fun head =>
        NamedRule.lineText head (NamedRule.bodiesOf rules head) ++ "\n") := by
    rw [mapM_eq_some_iff, OrderedMap.values, List.map_map, List.forall₂_map_right_iff,
      List.forall₂_same]
    intro entry hentry
    exact hg.lineText?_eq h (OrderedMap.get?_eq_some_iff.mpr hentry)
      (hne entry.2 (List.mem_map_of_mem hentry))
  rw [text?, hlines]
  rfl

end Grammar

end GrammarAnalysis

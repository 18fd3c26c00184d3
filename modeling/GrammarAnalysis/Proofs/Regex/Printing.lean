import GrammarAnalysis.Proofs.Grammar.Listing
import GrammarAnalysis.Regex.Language
import GrammarAnalysis.Regex.Printer

/-!
# The text of an expression tells its language

The texts of expressions belong to a small grammar with four layers: leaves and groups in
parentheses, then repetitions, then sequences, then choices (`Regex.Denotes`).  What an
expression is printed as denotes its language on the layer of choices, and on the layer of
sequences if it is no union; nested unions and concatenations print flat, which is right
since both operations are associative.

If names hold none of the characters that structure a text, a text denotes at most one
language (`Regex.Denotes.unique`).  The proof reads two derivations from the left: they read
the same text, up to a rest at which their layer has to stop.
-/

namespace GrammarAnalysis

open Computability Text

/-! ## Names -/

/-- The characters that structure the text of an expression. -/
def Regex.isMark (c : Char) : Bool := c ∈ ['(', ')', '|', '*', ' ']

/-- Whether names tell their terminals, and can be told from the rest of a text. -/
structure Regex.AreReadable (name? : TerminalId → Option String) : Prop where
  inj : ∀ {t u name}, name? t = some name → name? u = some name → t = u
  ne_nil : ∀ {t name}, name? t = some name → name.toList ≠ []
  ne_emptyWord : ∀ {t name}, name? t = some name → name ≠ emptyWordText
  not_mark : ∀ {t name}, name? t = some name → ∀ c ∈ name.toList, isMark c = false

namespace Regex

variable {name? : TerminalId → Option String} {text text' rest rest' : List Char}
  {L M : Language TerminalId}

/-! ## Leaves -/

/-- The texts of the empty word and of single terminals, with their languages. -/
inductive Leaf (name? : TerminalId → Option String) : List Char → Language TerminalId → Prop
  | emptyWord : Leaf name? emptyWordText.toList 1
  | symbol {t : TerminalId} {name : String} (named : name? t = some name) :
      Leaf name? name.toList {[t]}

theorem Leaf.ne_nil (hnames : AreReadable name?) (h : Leaf name? text L) : text ≠ [] := by
  cases h with
  | emptyWord => decide
  | symbol named => exact hnames.ne_nil named

theorem Leaf.not_mark (hnames : AreReadable name?) (h : Leaf name? text L) :
    ∀ c ∈ text, isMark c = false := by
  cases h with
  | emptyWord => simp [emptyWordText, isMark]
  | symbol named => exact hnames.not_mark named

theorem Leaf.unique (hnames : AreReadable name?) (h : Leaf name? text L)
    (h' : Leaf name? text M) : L = M := by
  cases h with
  | emptyWord =>
      generalize htext : emptyWordText.toList = text at h'
      cases h' with
      | emptyWord => rfl
      | symbol named =>
          exact absurd (String.toList_injective htext.symm) (hnames.ne_emptyWord named)
  | @symbol t name named =>
      generalize htext : name.toList = text at h'
      cases h' with
      | emptyWord => exact absurd (String.toList_injective htext) (hnames.ne_emptyWord named)
      | symbol named' =>
          obtain rfl := String.toList_injective htext
          rw [hnames.inj named named']

/-- A leaf ends where a mark stands. -/
theorem Leaf.takeWhile_append (hnames : AreReadable name?) (h : Leaf name? text L)
    (hrest : ∀ c ∈ rest.head?, isMark c = true) :
    (text ++ rest).takeWhile (fun c => !isMark c) = text := by
  rw [List.takeWhile_append_of_pos (by simpa using h.not_mark hnames)]
  cases rest with
  | nil => simp
  | cons c rest => simp [hrest c rfl]

/-- A leaf does not start like a group. -/
theorem Leaf.append_ne_group (hnames : AreReadable name?) (h : Leaf name? text L)
    (rest more : List Char) : text ++ rest ≠ '(' :: more := by
  intro heq
  obtain ⟨c, behind, rfl⟩ := List.exists_cons_of_ne_nil (h.ne_nil hnames)
  obtain ⟨rfl, -⟩ := List.cons.inj heq
  have hmark := h.not_mark hnames '(' List.mem_cons_self
  contradiction

/-! ## Layers -/

/-- The layers of the text of an expression. -/
inductive Layer where
  | primary
  | factor
  | sequence
  | choice

/-- Whether a text on a layer denotes a language, given the names of the terminals. -/
inductive Denotes (name? : TerminalId → Option String) :
    Layer → List Char → Language TerminalId → Prop
  | leaf {text : List Char} {L : Language TerminalId} (h : Leaf name? text L) :
      Denotes name? .primary text L
  | group {text : List Char} {L : Language TerminalId} (h : Denotes name? .choice text L) :
      Denotes name? .primary ('(' :: (text ++ [')'])) L
  | once {text : List Char} {L : Language TerminalId} (h : Denotes name? .primary text L) :
      Denotes name? .factor text L
  | repeated {text : List Char} {L : Language TerminalId} (h : Denotes name? .primary text L) :
      Denotes name? .factor (text ++ ['*']) L∗
  | last {text : List Char} {L : Language TerminalId} (h : Denotes name? .factor text L) :
      Denotes name? .sequence text L
  | follow {text text' : List Char} {L M : Language TerminalId}
      (h : Denotes name? .factor text L) (h' : Denotes name? .sequence text' M) :
      Denotes name? .sequence (text ++ ' ' :: text') (L * M)
  | only {text : List Char} {L : Language TerminalId} (h : Denotes name? .sequence text L) :
      Denotes name? .choice text L
  | or {text text' : List Char} {L M : Language TerminalId}
      (h : Denotes name? .sequence text L) (h' : Denotes name? .choice text' M) :
      Denotes name? .choice (text ++ ' ' :: '|' :: ' ' :: text') (L + M)

/-- Whether a text on a layer has to stop in front of the rest. -/
@[simp] def Layer.Stops : Layer → List Char → Prop
  | .primary, rest => ∀ c ∈ rest.head?, c = ' ' ∨ c = ')' ∨ c = '*'
  | .factor, rest => ∀ c ∈ rest.head?, c = ' ' ∨ c = ')'
  | .sequence, rest => ∀ c ∈ rest.head?, c = ')' ∨ ∃ more, rest = ' ' :: '|' :: more
  | .choice, rest => ∀ c ∈ rest.head?, c = ')'

theorem Layer.Stops.sequence (h : Layer.choice.Stops rest) : Layer.sequence.Stops rest :=
  fun c hc => Or.inl (h c hc)

theorem Layer.Stops.factor (h : Layer.sequence.Stops rest) : Layer.factor.Stops rest := by
  intro c hc
  rcases h c hc with hparenthesis | ⟨more, rfl⟩
  · exact Or.inr hparenthesis
  · exact Or.inl (Option.some.inj hc).symm

theorem Layer.Stops.primary (h : Layer.factor.Stops rest) : Layer.primary.Stops rest :=
  fun c hc => (h c hc).imp_right Or.inl

theorem Layer.Stops.isMark (h : Layer.primary.Stops rest) : ∀ c ∈ rest.head?, isMark c = true := by
  intro c hc
  rcases h c hc with rfl | rfl | rfl <;> rfl

theorem Layer.stops_parenthesis (layer : Layer) (rest : List Char) : layer.Stops (')' :: rest) := by
  cases layer <;> simp

namespace Denotes

/-- A text starts with a parenthesis or a name. -/
theorem exists_cons (hnames : AreReadable name?) {layer : Layer} (h : Denotes name? layer text L) :
    ∃ c more, text = c :: more ∧ (c = '(' ∨ isMark c = false) := by
  induction h with
  | leaf h =>
      obtain ⟨c, more, rfl⟩ := List.exists_cons_of_ne_nil (h.ne_nil hnames)
      exact ⟨c, more, rfl, Or.inr (h.not_mark hnames c List.mem_cons_self)⟩
  | group => exact ⟨_, _, rfl, Or.inl rfl⟩
  | once _ ih => exact ih
  | repeated _ ih =>
      obtain ⟨c, more, rfl, hc⟩ := ih
      exact ⟨c, _, rfl, hc⟩
  | last _ ih => exact ih
  | follow _ _ ih =>
      obtain ⟨c, more, rfl, hc⟩ := ih
      exact ⟨c, _, rfl, hc⟩
  | only _ ih => exact ih
  | or _ _ ih =>
      obtain ⟨c, more, rfl, hc⟩ := ih
      exact ⟨c, _, rfl, hc⟩

/-- A sequence that goes on does not stop. -/
theorem not_stops_cons (hnames : AreReadable name?) {layer : Layer}
    (h : Denotes name? layer text L) (rest : List Char) :
    ¬Layer.sequence.Stops (' ' :: (text ++ rest)) := by
  intro hstops
  rcases hstops ' ' rfl with hspace | ⟨more, heq⟩
  · contradiction
  · obtain ⟨c, behind, rfl, hc⟩ := h.exists_cons hnames
    obtain ⟨rfl, -⟩ := List.cons.inj (List.cons.inj heq).2
    revert hc
    decide

/-- Two texts with rests at which their layer stops are the same only if they denote the
same language and have the same rest. -/
theorem append_inj (hnames : AreReadable name?) {layer : Layer} (h : Denotes name? layer text L)
    (h' : Denotes name? layer text' M) (hrest : layer.Stops rest) (hrest' : layer.Stops rest')
    (heq : text ++ rest = text' ++ rest') : L = M ∧ rest = rest' := by
  -- what stands behind a part of a text stops the layer of the part, so the parts agree from
  -- the left; a text that goes on where the other one ends would start its rest with a mark
  -- at which the layer does not stop
  induction h generalizing text' M rest rest' with
  | leaf hleaf =>
      cases h' with
      | leaf hleaf' =>
          have hread := hleaf.takeWhile_append hnames hrest.isMark
          rw [heq, hleaf'.takeWhile_append hnames hrest'.isMark] at hread
          subst hread
          exact ⟨hleaf.unique hnames hleaf', List.append_cancel_left heq⟩
      | group _ => exact absurd heq (hleaf.append_ne_group hnames _ _)
  | group _ ih =>
      cases h' with
      | leaf hleaf => exact absurd heq.symm (hleaf.append_ne_group hnames _ _)
      | group h' =>
          simp only [List.cons_append, List.append_assoc, List.cons.injEq, true_and] at heq
          obtain ⟨rfl, hsame⟩ :=
            ih h' (Layer.stops_parenthesis _ _) (Layer.stops_parenthesis _ _) heq
          exact ⟨rfl, (List.cons.inj hsame).2⟩
  | once _ ih =>
      cases h' with
      | once h' => exact ih h' hrest.primary hrest'.primary heq
      | repeated h' =>
          rw [List.append_assoc] at heq
          obtain ⟨-, rfl⟩ := ih h' hrest.primary (by simp) heq
          simp at hrest
  | repeated _ ih =>
      rw [List.append_assoc] at heq
      cases h' with
      | once h' =>
          obtain ⟨-, rfl⟩ := ih h' (by simp) hrest'.primary heq
          simp at hrest'
      | repeated h' =>
          rw [List.append_assoc] at heq
          obtain ⟨rfl, hsame⟩ := ih h' (by simp) (by simp) heq
          exact ⟨rfl, List.append_cancel_left hsame⟩
  | last _ ih =>
      cases h' with
      | last h' => exact ih h' hrest.factor hrest'.factor heq
      | follow h' hmore =>
          rw [List.append_assoc] at heq
          obtain ⟨-, rfl⟩ := ih h' hrest.factor (by simp) heq
          exact absurd hrest (hmore.not_stops_cons hnames _)
  | follow _ hmore ih ih' =>
      rw [List.append_assoc] at heq
      cases h' with
      | last h' =>
          obtain ⟨-, rfl⟩ := ih h' (by simp) hrest'.factor heq
          exact absurd hrest' (hmore.not_stops_cons hnames _)
      | follow h' hmore' =>
          rw [List.append_assoc] at heq
          obtain ⟨rfl, hsame⟩ := ih h' (by simp) (by simp) heq
          obtain ⟨rfl, hrests⟩ := ih' hmore' hrest hrest' (List.cons.inj hsame).2
          exact ⟨rfl, hrests⟩
  | only _ ih =>
      cases h' with
      | only h' => exact ih h' hrest.sequence hrest'.sequence heq
      | or h' _ =>
          rw [List.append_assoc] at heq
          obtain ⟨-, rfl⟩ := ih h' hrest.sequence (by simp) heq
          simp at hrest
  | or _ _ ih ih' =>
      rw [List.append_assoc] at heq
      cases h' with
      | only h' =>
          obtain ⟨-, rfl⟩ := ih h' (by simp) hrest'.sequence heq
          simp at hrest'
      | or h' hmore' =>
          rw [List.append_assoc] at heq
          obtain ⟨rfl, hsame⟩ := ih h' (by simp) (by simp) heq
          simp only [List.cons_append, List.cons.injEq, true_and] at hsame
          obtain ⟨rfl, hrests⟩ := ih' hmore' hrest hrest' hsame
          exact ⟨rfl, hrests⟩

/-- A text denotes at most one language. -/
theorem unique (hnames : AreReadable name?) {layer : Layer} (h : Denotes name? layer text L)
    (h' : Denotes name? layer text M) : L = M := by
  have hend : layer.Stops [] := by cases layer <;> simp
  exact (h.append_inj hnames h' hend hend rfl).1

/-- Sequences make a sequence, since concatenation is associative. -/
theorem follow_sequence (h : Denotes name? .sequence text L)
    (h' : Denotes name? .sequence text' M) :
    Denotes name? .sequence (text ++ ' ' :: text') (L * M) := by
  generalize hlayer : Layer.sequence = layer at h
  induction h with
  | last h => exact .follow h h'
  | follow h _ _ ih =>
      rw [List.append_assoc, mul_assoc]
      exact .follow h (ih hlayer)
  | leaf | group | once | repeated | only | or => contradiction

/-- Choices make a choice, since union is associative. -/
theorem or_choice (h : Denotes name? .choice text L) (h' : Denotes name? .choice text' M) :
    Denotes name? .choice (text ++ ' ' :: '|' :: ' ' :: text') (L + M) := by
  generalize hlayer : Layer.choice = layer at h
  induction h with
  | only h => exact .or h h'
  | or h _ _ ih =>
      rw [List.append_assoc, add_assoc]
      exact .or h (ih hlayer)
  | leaf | group | once | repeated | last | follow => contradiction

end Denotes

/-! ## Printed expressions -/

/-- Whether the terminals of an expression have names, and none of its concatenations and
unions is empty. -/
inductive IsFull (name? : TerminalId → Option String) : Regex → Prop
  | epsilon : IsFull name? .epsilon
  | symbol {t : TerminalId} (named : (name? t).isSome) : IsFull name? (.symbol t)
  | concat {parts : List Regex} (hne : parts ≠ []) (h : ∀ r ∈ parts, IsFull name? r) :
      IsFull name? (.concat parts)
  | union {alternatives : List Regex} (hne : alternatives ≠ [])
      (h : ∀ r ∈ alternatives, IsFull name? r) : IsFull name? (.union alternatives)
  | star {inner : Regex} (h : IsFull name? inner) : IsFull name? (.star inner)

@[simp] theorem isFull_symbol {t : TerminalId} : IsFull name? (.symbol t) ↔ (name? t).isSome :=
  ⟨fun h => by cases h; assumption, .symbol⟩

@[simp] theorem isFull_concat {parts : List Regex} :
    IsFull name? (.concat parts) ↔ parts ≠ [] ∧ ∀ r ∈ parts, IsFull name? r :=
  ⟨fun h => by cases h; exact ⟨‹_›, ‹_›⟩, fun h => .concat h.1 h.2⟩

@[simp] theorem isFull_union {alternatives : List Regex} :
    IsFull name? (.union alternatives) ↔
      alternatives ≠ [] ∧ ∀ r ∈ alternatives, IsFull name? r :=
  ⟨fun h => by cases h; exact ⟨‹_›, ‹_›⟩, fun h => .union h.1 h.2⟩

@[simp] theorem isFull_star {inner : Regex} : IsFull name? (.star inner) ↔ IsFull name? inner :=
  ⟨fun h => by cases h; assumption, .star⟩

/-- Whether the text of an expression denotes its language. -/
structure IsPrintedAs (name? : TerminalId → Option String) (r : Regex) (text : String) :
    Prop where
  text?_eq : r.text? name? = some text
  choice : Denotes name? .choice text.toList r.language
  sequence : r.isUnion = false → Denotes name? .sequence text.toList r.language

theorem IsPrintedAs.of_sequence {r : Regex} {text : String} (htext : r.text? name? = some text)
    (h : Denotes name? .sequence text.toList r.language) : IsPrintedAs name? r text :=
  ⟨htext, .only h, fun _ => h⟩

/-- In parentheses where they are wanted, every expression is printed as a sequence. -/
theorem IsPrintedAs.parenthesized {r : Regex} {text : String} (h : IsPrintedAs name? r text) :
    Denotes name? .sequence (Regex.parenthesized r.isUnion text).toList r.language := by
  cases hunion : r.isUnion with
  | false => exact h.sequence hunion
  | true =>
      have hgroup := Denotes.last (.once (.group h.choice))
      simpa [Regex.parenthesized] using hgroup

theorem exists_texts {rs : List Regex} (h : ∀ r ∈ rs, ∃ text, IsPrintedAs name? r text) :
    ∃ texts, texts? name? rs = some texts ∧
      List.Forall₂ (fun r text => Denotes name? .choice text.toList r.language) rs texts := by
  induction rs with
  | nil => exact ⟨[], rfl, .nil⟩
  | cons r rs ih =>
      rw [List.forall_mem_cons] at h
      obtain ⟨⟨text, hfirst⟩, hothers⟩ := h
      obtain ⟨texts, htexts, hall⟩ := ih hothers
      refine ⟨text :: texts, ?_, .cons hfirst.choice hall⟩
      rw [texts?, hfirst.text?_eq, htexts]
      rfl

theorem exists_partTexts {rs : List Regex} (h : ∀ r ∈ rs, ∃ text, IsPrintedAs name? r text) :
    ∃ texts, partTexts? name? rs = some texts ∧
      List.Forall₂ (fun r text => Denotes name? .sequence text.toList r.language) rs texts := by
  induction rs with
  | nil => exact ⟨[], rfl, .nil⟩
  | cons r rs ih =>
      rw [List.forall_mem_cons] at h
      obtain ⟨⟨text, hfirst⟩, hothers⟩ := h
      obtain ⟨texts, htexts, hall⟩ := ih hothers
      refine ⟨Regex.parenthesized r.isUnion text :: texts, ?_, .cons hfirst.parenthesized hall⟩
      rw [partTexts?, hfirst.text?_eq, htexts]
      rfl

/-- Texts on a layer can be joined if two of them can. -/
theorem Denotes.intercalate {layer : Layer} {separator : String}
    {total : List Regex → Language TerminalId}
    {join : Language TerminalId → Language TerminalId → Language TerminalId}
    (hsingle : ∀ r, total [r] = r.language)
    (hcons : ∀ r rs, total (r :: rs) = join r.language (total rs))
    (happend : ∀ {text text' L M}, Denotes name? layer text L → Denotes name? layer text' M →
      Denotes name? layer (text ++ separator.toList ++ text') (join L M))
    {rs : List Regex} {texts : List String} (hne : rs ≠ [])
    (h : List.Forall₂ (fun r text => Denotes name? layer text.toList r.language) rs texts) :
    Denotes name? layer (separator.intercalate texts).toList (total rs) := by
  induction h with
  | nil => contradiction
  | @cons r text rs texts hfirst hothers ih =>
      cases hothers with
      | nil => simpa [String.toList_intercalate, hsingle] using hfirst
      | cons _ _ =>
          rw [hcons]
          simpa [String.toList_intercalate, List.intercalate_cons_cons] using
            happend hfirst (ih (List.cons_ne_nil _ _))

/-- An expression without empty nodes has a text, which denotes its language. -/
theorem IsFull.exists_text {r : Regex} (h : IsFull name? r) : ∃ text, IsPrintedAs name? r text := by
  induction h with
  | epsilon =>
      refine ⟨emptyWordText, .of_sequence (by rw [text?]) ?_⟩
      rw [language_epsilon]
      exact .last (.once (.leaf .emptyWord))
  | @symbol t named =>
      obtain ⟨name, hname⟩ := Option.isSome_iff_exists.mp named
      refine ⟨name, .of_sequence (by rw [text?, hname]) ?_⟩
      rw [language_symbol]
      exact .last (.once (.leaf (.symbol hname)))
  | @concat parts hne _ ih =>
      obtain ⟨texts, htexts, hall⟩ := exists_partTexts ih
      refine ⟨" ".intercalate texts, .of_sequence (by rw [text?, htexts]; rfl) ?_⟩
      rw [language_concat]
      refine Denotes.intercalate (by simp) chainLanguage_cons ?_ hne hall
      intro text text' L M h h'
      simpa using h.follow_sequence h'
  | @union alternatives hne _ ih =>
      obtain ⟨texts, htexts, hall⟩ := exists_texts ih
      refine ⟨" | ".intercalate texts, by rw [text?, htexts]; rfl, ?_, by simp [isUnion]⟩
      rw [language_union]
      refine Denotes.intercalate (by simp) choiceLanguage_cons ?_ hne hall
      intro text text' L M h h'
      simpa using h.or_choice h'
  | @star inner _ ih =>
      obtain ⟨text, hinner⟩ := ih
      by_cases hsymbol : ∃ t, inner = .symbol t
      · obtain ⟨t, rfl⟩ := hsymbol
        have hname : name? t = some text := by
          rw [← hinner.text?_eq, text?]
        refine ⟨text ++ "*", .of_sequence (by rw [text?, hname]; rfl) ?_⟩
        rw [language_star, language_symbol]
        have hrepeated := Denotes.last (.repeated (.leaf (.symbol hname)))
        simpa using hrepeated
      · refine ⟨Regex.parenthesized true text ++ "*", .of_sequence ?_ ?_⟩
        · rw [text?, hinner.text?_eq]
          · rfl
          · rintro t rfl
            exact hsymbol ⟨t, rfl⟩
        · rw [language_star]
          have hgroup := Denotes.last (.repeated (.group hinner.choice))
          simpa [Regex.parenthesized] using hgroup

end Regex

/-! ## Grammars -/

/-- Whether the names of the terminals are distinct, not empty and not the text of the empty
word, and hold no parentheses, bars, stars and blanks. -/
structure Grammar.HasReadableNames (g : Grammar) : Prop where
  names_nodup : g.terminals.values.Nodup
  ne_empty : ∀ name ∈ g.terminals.values, name ≠ ""
  ne_emptyWord : ∀ name ∈ g.terminals.values, name ≠ Regex.emptyWordText
  plain : ∀ name ∈ g.terminals.values, ∀ c ∈ name.toList,
    c ≠ '(' ∧ c ≠ ')' ∧ c ≠ '|' ∧ c ≠ '*' ∧ isBlank c = false

theorem Grammar.HasReadableNames.areReadable {g : Grammar} (hg : g.HasReadableNames) :
    Regex.AreReadable g.terminals.get? where
  inj := OrderedMap.eq_of_get?_eq hg.names_nodup
  ne_nil h := by simpa using hg.ne_empty _ (OrderedMap.mem_values_of_get? h)
  ne_emptyWord h := hg.ne_emptyWord _ (OrderedMap.mem_values_of_get? h)
  not_mark := by
    intro t name h c hc
    obtain ⟨hopen, hclose, hbar, hstar, hblank⟩ :=
      hg.plain name (OrderedMap.mem_values_of_get? h) c hc
    have hspace : c ≠ ' ' := by
      rintro rfl
      contradiction
    simp [Regex.isMark, hopen, hclose, hbar, hstar, hspace]

namespace Regex

/-- If the names of the terminals are distinct and hold nothing that structures a text,
expressions without empty nodes have texts, and two expressions with the same text denote the
same language. -/
theorem language_eq_of_same_text {g : Grammar} (hg : g.HasReadableNames) {r s : Regex}
    (hr : r.IsFull g.terminals.get?) (hs : s.IsFull g.terminals.get?) :
    ∃ text text', r.text? g.terminals.get? = some text ∧ s.text? g.terminals.get? = some text' ∧
      (text = text' → r.language = s.language) := by
  obtain ⟨text, htext⟩ := hr.exists_text
  obtain ⟨text', htext'⟩ := hs.exists_text
  refine ⟨text, text', htext.text?_eq, htext'.text?_eq, ?_⟩
  rintro rfl
  exact htext.choice.unique hg.areReadable htext'.choice

/-- Nested unions and concatenations are printed flat, and so is a union of one expression. -/
theorem language_eq_of_same_text_nested :
    ∃ g : Grammar, g.HasReadableNames ∧
      (union [union [concat [concat [symbol 1], star (symbol 2)]], star (union [symbol 3])]).text?
        g.terminals.get? = some "a b* | (c)*" ∧
      (union [concat [symbol 1, star (symbol 2)], star (concat [symbol 3])]).text?
        g.terminals.get? = some "a b* | (c)*" ∧
      (union [union [concat [concat [symbol 1], star (symbol 2)]],
          star (union [symbol 3])]).language =
        (union [concat [symbol 1, star (symbol 2)], star (concat [symbol 3])]).language := by
  have hcomputed : (Grammar.ofText "S -> a b c\n").toOption.map (fun g =>
      (g.terminals.values, [1, 2, 3].map fun t => g.terminals.get? t)) =
        some (["$", "a", "b", "c"], [some "a", some "b", some "c"]) := by
    decide +kernel
  obtain ⟨g, -, hcomputed⟩ := Grammar.exists_of_ofText hcomputed
  obtain ⟨hvalues, hnames⟩ := Prod.mk.inj hcomputed
  simp only [List.map_cons, List.map_nil, List.cons.injEq, and_true] at hnames
  obtain ⟨ha, hb, hc⟩ := hnames
  have hreadable : g.HasReadableNames := by
    constructor <;> simp [hvalues, emptyWordText, isBlank, blankRanges]
  obtain ⟨text, text', htext, htext', hlanguage⟩ := language_eq_of_same_text hreadable
    (r := union [union [concat [concat [symbol 1], star (symbol 2)]], star (union [symbol 3])])
    (s := union [concat [symbol 1, star (symbol 2)], star (concat [symbol 3])])
    (by simp [ha, hb, hc]) (by simp [ha, hb, hc])
  have hprinted : "a b* | (c)*" = text := by
    simpa [text?, texts?, partTexts?, isUnion, parenthesized, ha, hb, hc] using htext
  have hprinted' : "a b* | (c)*" = text' := by
    simpa [text?, texts?, partTexts?, isUnion, parenthesized, ha, hb, hc] using htext'
  refine ⟨g, hreadable, ?_, ?_, hlanguage (hprinted.symm.trans hprinted')⟩
  · rw [htext, hprinted]
  · rw [htext', hprinted']

end Regex

end GrammarAnalysis

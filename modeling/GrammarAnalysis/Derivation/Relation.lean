import GrammarAnalysis.Derivation.Basic

/-!
# Derivations of sentential forms

A sentential form is a list of symbols.  A rule is applied by replacing one
occurrence of its head by its body, and a derivation is a sequence of such
applications.  A derivation in order always replaces the leftmost or always the
rightmost nonterminal, so that its rules determine it.

* `Grammar.Derives` forgets which rules are applied, and where.
* `Grammar.DerivesBy` lists the rules of a derivation in order.
* `Grammar.Generates` relates a nonterminal to the words derived from it.

Parts of a sentential form are derived independently (`derives_append_iff`).
-/

namespace GrammarAnalysis

/-- The sentential form that consists of the terminals of a word. -/
def sentence (word : List TerminalId) : List Symbol := word.map .terminal

@[simp] theorem sentence_nil : sentence [] = [] := rfl

@[simp] theorem sentence_cons (t : TerminalId) (word : List TerminalId) :
    sentence (t :: word) = .terminal t :: sentence word := rfl

@[simp] theorem sentence_append (word more : List TerminalId) :
    sentence (word ++ more) = sentence word ++ sentence more := List.map_append

theorem sentence_injective {word other : List TerminalId} (h : sentence word = sentence other) :
    word = other := by
  induction word generalizing other with
  | nil => cases other <;> simp_all
  | cons t word ih =>
    cases other with
    | nil => simp at h
    | cons u other =>
      simp only [sentence_cons, List.cons.injEq, Symbol.terminal.injEq] at h
      rw [h.1, ih h.2]

/-- A part of the sentential form of a word belongs to a part of the word. -/
theorem sentence_eq_append {word : List TerminalId} {s t : List Symbol}
    (h : sentence word = s ++ t) :
    ∃ before after, word = before ++ after ∧ s = sentence before ∧ t = sentence after := by
  obtain ⟨before, after, hw, hs, ht⟩ := List.map_eq_append_iff.1 h
  exact ⟨before, after, hw, hs.symm, ht.symm⟩

theorem not_nonterminal_mem_sentence (n : NonterminalId) (word : List TerminalId) :
    .nonterminal n ∉ sentence word := by
  simp [sentence]

namespace Grammar

/-- One application of a rule: an occurrence of its head is replaced by its body. -/
inductive Expands (g : Grammar) (id : RuleId) : List Symbol → List Symbol → Prop
  | intro {rule : Rule} (known : g.rules.get? id = some rule) (before after : List Symbol) :
      Expands g id (before ++ .nonterminal rule.head :: after) (before ++ rule.body ++ after)

/-- One application of a rule to the leftmost or to the rightmost nonterminal. -/
inductive ExpandsIn (g : Grammar) : Handedness → RuleId → List Symbol → List Symbol → Prop
  | leftmost {id : RuleId} {rule : Rule} (known : g.rules.get? id = some rule)
      (before : List TerminalId) (after : List Symbol) :
      ExpandsIn g .leftmost id (sentence before ++ .nonterminal rule.head :: after)
        (sentence before ++ rule.body ++ after)
  | rightmost {id : RuleId} {rule : Rule} (known : g.rules.get? id = some rule)
      (before : List Symbol) (after : List TerminalId) :
      ExpandsIn g .rightmost id (before ++ .nonterminal rule.head :: sentence after)
        (before ++ rule.body ++ sentence after)

/-- Any number of applications of rules. -/
inductive Derives (g : Grammar) : List Symbol → List Symbol → Prop
  | refl (form : List Symbol) : Derives g form form
  | step {id : RuleId} {form next last : List Symbol} (first : g.Expands id form next)
      (rest : Derives g next last) : Derives g form last

/-- Applications of the listed rules, one after the other, each to the leftmost
or each to the rightmost nonterminal. -/
inductive DerivesBy (g : Grammar) (order : Handedness) :
    List RuleId → List Symbol → List Symbol → Prop
  | nil (form : List Symbol) : DerivesBy g order [] form form
  | cons {id : RuleId} {ids : List RuleId} {form next last : List Symbol}
      (first : g.ExpandsIn order id form next) (rest : DerivesBy g order ids next last) :
      DerivesBy g order (id :: ids) form last

/-- Whether a word is derived from a nonterminal. -/
def Generates (g : Grammar) (n : NonterminalId) (word : List TerminalId) : Prop :=
  g.Derives [.nonterminal n] (sentence word)

/-- Whether a word belongs to the language of the grammar. -/
def HasWord (g : Grammar) (word : List TerminalId) : Prop := g.Generates g.start word

/-- Whether every declared nonterminal derives a word. -/
def IsProductive (g : Grammar) : Prop :=
  ∀ n, n ∈ g.nonterminals.keys → ∃ word, g.Generates n word

/-- Whether the rules of a derivation lead from the start symbol to the word. -/
def IsDerivationOf (g : Grammar) (derivation : Derivation) (word : List TerminalId) : Prop :=
  g.DerivesBy derivation.order derivation.rules [.nonterminal g.start] (sentence word)

theorem ExpandsIn.expands {g : Grammar} {order : Handedness} {id : RuleId}
    {form next : List Symbol} (h : g.ExpandsIn order id form next) : g.Expands id form next := by
  cases h with
  | leftmost known before after => exact .intro known _ after
  | rightmost known before after => exact .intro known before _

theorem Expands.append_left {g : Grammar} {id : RuleId} {form next : List Symbol}
    (h : g.Expands id form next) (s : List Symbol) : g.Expands id (s ++ form) (s ++ next) := by
  cases h with
  | intro known before after =>
    have := Expands.intro known (s ++ before) after
    simpa only [List.append_assoc] using this

theorem Expands.append_right {g : Grammar} {id : RuleId} {form next : List Symbol}
    (h : g.Expands id form next) (s : List Symbol) : g.Expands id (form ++ s) (next ++ s) := by
  cases h with
  | intro known before after =>
    have := Expands.intro known before (after ++ s)
    simpa only [List.append_assoc, List.cons_append] using this

namespace Derives

variable {g : Grammar}

theorem trans {form middle last : List Symbol} (h : g.Derives form middle)
    (h' : g.Derives middle last) : g.Derives form last := by
  induction h with
  | refl => exact h'
  | step first _ ih => exact .step first (ih h')

theorem append_left {form last : List Symbol} (h : g.Derives form last) (s : List Symbol) :
    g.Derives (s ++ form) (s ++ last) := by
  induction h with
  | refl => exact .refl _
  | step first _ ih => exact .step (first.append_left s) ih

theorem append_right {form last : List Symbol} (h : g.Derives form last) (s : List Symbol) :
    g.Derives (form ++ s) (last ++ s) := by
  induction h with
  | refl => exact .refl _
  | step first _ ih => exact .step (first.append_right s) ih

theorem append {s s' t t' : List Symbol} (hs : g.Derives s s') (ht : g.Derives t t') :
    g.Derives (s ++ t) (s' ++ t') :=
  (hs.append_right t).trans (ht.append_left s')

/-- A nonterminal derives the bodies of its rules. -/
theorem of_rule {id : RuleId} {rule : Rule} (h : g.rules.get? id = some rule) :
    g.Derives [.nonterminal rule.head] rule.body := by
  have first := Expands.intro h [] []
  simp only [List.nil_append, List.append_nil] at first
  exact .step first (.refl _)

end Derives

/-- A rule applied to two parts of a sentential form is applied to one of them. -/
theorem Expands.of_append {g : Grammar} {id : RuleId} {s t next : List Symbol}
    (h : g.Expands id (s ++ t) next) :
    (∃ s', next = s' ++ t ∧ g.Expands id s s') ∨ ∃ t', next = s ++ t' ∧ g.Expands id t t' := by
  generalize hform : s ++ t = form at h
  cases h with
  | @intro rule known before after =>
    rcases List.append_eq_append_iff.1 hform with ⟨middle, hb, ht⟩ | ⟨middle, hs, ha⟩
    · right
      refine ⟨middle ++ rule.body ++ after, ?_, ?_⟩
      · simp [hb, List.append_assoc]
      · rw [ht]
        exact .intro known middle after
    · cases middle with
      | nil =>
        right
        simp only [List.nil_append] at ha
        refine ⟨rule.body ++ after, ?_, ?_⟩
        · simp_all
        · rw [← ha]
          exact .intro known [] after
      | cons symbol rest =>
        left
        simp only [List.cons_append, List.cons.injEq] at ha
        obtain ⟨rfl, ha⟩ := ha
        refine ⟨before ++ rule.body ++ rest, ?_, ?_⟩
        · simp [ha, List.append_assoc]
        · rw [hs]
          exact .intro known before rest

/-- Two parts of a sentential form are derived independently. -/
theorem derives_append_iff {g : Grammar} {s t last : List Symbol} :
    g.Derives (s ++ t) last ↔
      ∃ s' t', last = s' ++ t' ∧ g.Derives s s' ∧ g.Derives t t' := by
  constructor
  · intro h
    generalize hform : s ++ t = form at h
    induction h generalizing s t with
    | refl => exact ⟨s, t, hform.symm, .refl _, .refl _⟩
    | step first _ ih =>
      subst hform
      rcases first.of_append with ⟨s', rfl, hs⟩ | ⟨t', rfl, ht⟩
      · obtain ⟨s'', t'', hlast, hs', ht'⟩ := ih rfl
        exact ⟨s'', t'', hlast, .step hs hs', ht'⟩
      · obtain ⟨s'', t'', hlast, hs', ht'⟩ := ih rfl
        exact ⟨s'', t'', hlast, hs', .step ht ht'⟩
  · rintro ⟨s', t', rfl, hs, ht⟩
    exact hs.append ht

/-- Terminals derive nothing but themselves. -/
theorem derives_sentence_iff {g : Grammar} {word : List TerminalId} {last : List Symbol} :
    g.Derives (sentence word) last ↔ last = sentence word := by
  constructor
  · intro h
    cases h with
    | refl => rfl
    | step first _ =>
      generalize hform : sentence word = form at first
      cases first with
      | @intro rule known before after =>
        have : Symbol.nonterminal rule.head ∈ sentence word := by simp [hform]
        exact absurd this (not_nonterminal_mem_sentence _ _)
  · rintro rfl
    exact .refl _

namespace DerivesBy

variable {g : Grammar} {order : Handedness}

theorem derives {ids : List RuleId} {form last : List Symbol}
    (h : g.DerivesBy order ids form last) : g.Derives form last := by
  induction h with
  | nil => exact .refl _
  | cons first _ ih => exact .step first.expands ih

theorem trans {ids more : List RuleId} {form middle last : List Symbol}
    (h : g.DerivesBy order ids form middle) (h' : g.DerivesBy order more middle last) :
    g.DerivesBy order (ids ++ more) form last := by
  induction h with
  | nil => exact h'
  | cons first _ ih => exact .cons first (ih h')

/-- A leftmost derivation goes on behind terminals. -/
theorem behind {ids : List RuleId} {form last : List Symbol}
    (h : g.DerivesBy .leftmost ids form last) (word : List TerminalId) :
    g.DerivesBy .leftmost ids (sentence word ++ form) (sentence word ++ last) := by
  induction h with
  | nil => exact .nil _
  | cons first _ ih =>
    refine .cons ?_ ih
    cases first with
    | leftmost known before after =>
      have := ExpandsIn.leftmost known (word ++ before) after
      simpa only [sentence_append, List.append_assoc] using this

/-- A leftmost derivation goes on in front of anything. -/
theorem inFrontOf {ids : List RuleId} {form last : List Symbol}
    (h : g.DerivesBy .leftmost ids form last) (s : List Symbol) :
    g.DerivesBy .leftmost ids (form ++ s) (last ++ s) := by
  induction h with
  | nil => exact .nil _
  | cons first _ ih =>
    refine .cons ?_ ih
    cases first with
    | leftmost known before after =>
      have := ExpandsIn.leftmost known before (after ++ s)
      simpa only [List.append_assoc, List.cons_append] using this

/-- A rightmost derivation goes on behind anything. -/
theorem rightmost_behind {ids : List RuleId} {form last : List Symbol}
    (h : g.DerivesBy .rightmost ids form last) (s : List Symbol) :
    g.DerivesBy .rightmost ids (s ++ form) (s ++ last) := by
  induction h with
  | nil => exact .nil _
  | cons first _ ih =>
    refine .cons ?_ ih
    cases first with
    | rightmost known before after =>
      have := ExpandsIn.rightmost known (s ++ before) after
      simpa only [List.append_assoc] using this

/-- A rightmost derivation goes on in front of terminals. -/
theorem rightmost_inFrontOf {ids : List RuleId} {form last : List Symbol}
    (h : g.DerivesBy .rightmost ids form last) (word : List TerminalId) :
    g.DerivesBy .rightmost ids (form ++ sentence word) (last ++ sentence word) := by
  induction h with
  | nil => exact .nil _
  | cons first _ ih =>
    refine .cons ?_ ih
    cases first with
    | rightmost known before after =>
      have := ExpandsIn.rightmost known before (after ++ word)
      simpa only [sentence_append, List.append_assoc, List.cons_append] using this

end DerivesBy

end Grammar

end GrammarAnalysis

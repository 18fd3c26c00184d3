import GrammarAnalysis.Proofs.Lookahead.Starts

/-!
# Completing sentential forms

If every nonterminal derives a word, so does every sentential form: whatever has
been derived from the start symbol can be completed to a word of the language.
What a word of a form begins with, the form starts with, and in a productive
grammar a form that starts with a terminal has a word that begins with it.
-/

namespace GrammarAnalysis

open ParseTree

namespace Grammar

variable {g a : Grammar}

/-- Whether every sentential form that is derived from the start symbol derives a
word; that is, every nonterminal that can be reached derives a word. -/
def IsCompletable (g : Grammar) : Prop :=
  ∀ form, g.Derives [.nonterminal g.start] form → ∃ word, g.Derives form (sentence word)

theorem exists_word_of_append {front back : List Symbol}
    (h : ∃ word, g.Derives (front ++ back) (sentence word)) :
    (∃ word, g.Derives front (sentence word)) ∧ ∃ word, g.Derives back (sentence word) := by
  obtain ⟨word, hderives⟩ := h
  obtain ⟨first, last, hsplit, hfront, hback⟩ := derives_append_iff.mp hderives
  obtain ⟨before, after, -, rfl, rfl⟩ := sentence_eq_append hsplit
  exact ⟨⟨before, hfront⟩, ⟨after, hback⟩⟩

/-- What the bodies of rules inherit from the heads, derived forms inherit. -/
theorem Derives.forall_mem (P : Symbol → Prop) {form last : List Symbol}
    (h : g.Derives form last)
    (hrules : ∀ {id rule}, g.rules.get? id = some rule → P (.nonterminal rule.head) →
      ∀ symbol ∈ rule.body, P symbol)
    (hform : ∀ symbol ∈ form, P symbol) : ∀ symbol ∈ last, P symbol := by
  induction h with
  | refl => exact hform
  | step first _ ih =>
      apply ih
      cases first with
      | @intro rule known before after =>
          have hbody := hrules known (hform (.nonterminal rule.head) (by simp))
          intro symbol hs
          rcases List.mem_append.mp hs with hs | hs
          · rcases List.mem_append.mp hs with hs | hs
            · exact hform symbol (by simp [hs])
            · exact hbody symbol hs
          · exact hform symbol (by simp [hs])

theorem IsClosed.declares_of_derives (hg : g.IsClosed) {form : List Symbol}
    (h : g.Derives [.nonterminal g.start] form) : ∀ symbol ∈ form, g.Declares symbol := by
  apply h.forall_mem g.Declares fun hrule _ => hg.body_declared hrule
  intro symbol hs
  rw [List.mem_singleton.mp hs]
  exact hg.start_declared

theorem exists_word_of_forall {form : List Symbol}
    (h : ∀ n, .nonterminal n ∈ form → ∃ word, g.Generates n word) :
    ∃ word, g.Derives form (sentence word) := by
  induction form with
  | nil => exact ⟨[], .refl _⟩
  | cons s form ih =>
      obtain ⟨back, hback⟩ := ih fun n hn => h n (List.mem_cons_of_mem _ hn)
      cases s with
      | terminal t => exact ⟨t :: back, hback.append_left [.terminal t]⟩
      | nonterminal n =>
          obtain ⟨front, hfront⟩ := h n List.mem_cons_self
          refine ⟨front ++ back, ?_⟩
          rw [sentence_append]
          exact Derives.append hfront hback

/-- Every sentential form derives a word if the nonterminals that are reached do. -/
theorem isCompletable_of_reached (reached : NonterminalId → Prop) (hstart : reached g.start)
    (hrules : ∀ {id rule}, g.rules.get? id = some rule → reached rule.head →
      ∀ n, .nonterminal n ∈ rule.body → reached n)
    (hwords : ∀ n, reached n → ∃ word, g.Generates n word) : g.IsCompletable := by
  intro form hform
  have hreached : ∀ symbol ∈ form, ∀ n, symbol = .nonterminal n → reached n := by
    apply hform.forall_mem fun symbol => ∀ n, symbol = .nonterminal n → reached n
    · rintro id rule hrule hhead symbol hs n rfl
      exact hrules hrule (hhead rule.head rfl) n hs
    · intro symbol hs n hn
      rw [List.mem_singleton.mp hs] at hn
      rw [← Symbol.nonterminal.inj hn]
      exact hstart
  exact exists_word_of_forall fun n hn => hwords n (hreached _ hn n rfl)

/-- In a productive grammar every form of declared symbols derives a word. -/
theorem IsProductive.exists_word (h : g.IsProductive) {form : List Symbol}
    (hform : ∀ symbol ∈ form, g.Declares symbol) : ∃ word, g.Derives form (sentence word) :=
  exists_word_of_forall fun n hn => h n (hform (.nonterminal n) hn)

/-- In a productive grammar every sentential form derives a word. -/
theorem IsProductive.isCompletable (h : g.IsProductive) (hg : g.IsClosed) : g.IsCompletable :=
  fun _ hform => h.exists_word (hg.declares_of_derives hform)

/-- Whether some word of the language begins with the word. -/
def HasPrefix (g : Grammar) (word : List TerminalId) : Prop := ∃ more, g.HasWord (word ++ more)

/-- The terminals at the front of a sentential form begin a word of the language. -/
theorem IsCompletable.hasPrefix (h : g.IsCompletable) {word : List TerminalId}
    {form : List Symbol} (hform : g.Derives [.nonterminal g.start] (sentence word ++ form)) :
    g.HasPrefix word := by
  obtain ⟨-, more, hmore⟩ := exists_word_of_append (h _ hform)
  refine ⟨more, ?_⟩
  rw [HasWord, Generates, sentence_append]
  exact hform.trans (hmore.append_left (sentence word))

/-! ## First terminals -/

/-- A form starts with the first terminal of its words, whatever comes behind. -/
theorem Derives.startsWith_firstTerminal {form : List Symbol} {word : List TerminalId}
    (h : g.Derives form (sentence word)) (rest : List TerminalId) :
    g.StartsWith (firstTerminal (word ++ rest)) (form ++ [.terminal (firstTerminal rest)]) := by
  obtain ⟨trees, rfl, htrees, rfl⟩ := h.exists_trees
  exact ParseTree.startsWith_firstTerminal htrees rest

/-- In a productive grammar a form that starts with a terminal in front of some word
derives a word that brings the terminal to the front. -/
theorem StartsWith.exists_word (hg : g.IsClosed) (hproductive : g.IsProductive)
    {form : List Symbol} (hform : ∀ symbol ∈ form, g.Declares symbol) {rest : List TerminalId}
    {t : TerminalId} (h : g.StartsWith t (form ++ [.terminal (firstTerminal rest)])) :
    ∃ word, g.Derives form (sentence word) ∧ firstTerminal (word ++ rest) = t := by
  rcases startsWith_append_iff.mp h with hfront | ⟨hvanish, hrest⟩
  · obtain ⟨back, hback⟩ := hfront.derives
    have hdeclared := hback.forall_mem g.Declares (fun known _ => hg.body_declared known) hform
    obtain ⟨word, hword⟩ := hproductive.exists_word fun s hs =>
      hdeclared s (List.mem_cons_of_mem _ hs)
    exact ⟨t :: word, hback.trans (hword.append_left [.terminal t]), rfl⟩
  · exact ⟨[], hvanish.derives, (startsWith_singleton_iff.mp hrest).symm⟩

/-! ## The augmentation -/

theorem IsAugmentation.derives (h : g.IsAugmentation a) {form last : List Symbol}
    (hform : g.Derives form last) : a.Derives form last := by
  induction hform with
  | refl => exact .refl _
  | step first _ ih =>
      obtain ⟨known, before, after⟩ := first
      exact .step (.intro (h.get?_of_get? known) before after) ih

theorem IsAugmentation.isProductive (h : g.IsAugmentation a) (hg : g.IsProductive) :
    a.IsProductive := by
  intro n hn
  rcases (h.mem_nonterminals_iff n).mp hn with rfl | hn
  · obtain ⟨word, hword⟩ := hg g.start h.isPlain.start_declared
    exact ⟨word, (Derives.of_rule h.get?_accept).trans (h.derives hword)⟩
  · obtain ⟨word, hword⟩ := hg n hn
    exact ⟨word, h.derives hword⟩

end Grammar

end GrammarAnalysis

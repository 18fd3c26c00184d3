import GrammarAnalysis.Proofs.Derivation.Completion
import GrammarAnalysis.Proofs.Item.Closure

/-!
# Traces of items along symbols

An item with a lookahead leads to others: it spawns the initial items of the
nonterminal it expects, and it moves over the symbol it expects.  A trace is a
sequence of such moves along a list of symbols.  Every move keeps items valid, and
the valid items are those to which traces from the reserved rule lead.

* `Grammar.Traces.isValidItem` follows a trace with a rightmost derivation.
* `Grammar.traces_of_derives` follows a derivation with traces to all
  nonterminals of its forms.
-/

namespace GrammarAnalysis

/-- The place of a member of two lists, one behind the other. -/
theorem cons_of_append_eq {α : Type} {x : α} {front back before after : List α}
    (h : front ++ back = before ++ x :: after) :
    (∃ middle, front = before ++ x :: middle ∧ after = middle ++ back) ∨
      ∃ middle, before = front ++ middle ∧ back = middle ++ x :: after := by
  rcases List.append_eq_append_iff.mp h with ⟨middle, hbefore, hback⟩ | ⟨middle, hfront, hcons⟩
  · exact Or.inr ⟨middle, hbefore, hback⟩
  · cases middle with
    | nil => exact Or.inr ⟨[], by simpa using hfront.symm, hcons.symm⟩
    | cons y middle =>
        obtain ⟨rfl, rfl⟩ := List.cons.inj hcons
        exact Or.inl ⟨middle, hfront, rfl⟩

namespace Grammar

/-- Whether an item with a lookahead leads along the symbols to another one. -/
inductive Traces (g : Grammar) : Item → TerminalId → List Symbol → Item → TerminalId → Prop
  | refl (item : Item) (t : TerminalId) : Traces g item t [] item t
  | spawn {item j last : Item} {n : NonterminalId} {l u t : TerminalId} {symbols : List Symbol}
      (expects : g.next? item = some (.nonterminal n)) (initial : j ∈ g.initialItems n)
      (starts : g.StartsWith u (g.afterNext item ++ [.terminal l]))
      (rest : Traces g j u symbols last t) : Traces g item l symbols last t
  | advance {item last : Item} {s : Symbol} {l t : TerminalId} {symbols : List Symbol}
      (expects : g.next? item = some s) (rest : Traces g item.advance l symbols last t) :
      Traces g item l (s :: symbols) last t

variable {g : Grammar} {item j last : Item} {l t u : TerminalId} {symbols more : List Symbol}

namespace Traces

theorem trans (h : g.Traces item l symbols j u) (h' : g.Traces j u more last t) :
    g.Traces item l (symbols ++ more) last t := by
  induction h with
  | refl => exact h'
  | spawn expects initial starts _ ih => exact .spawn expects initial starts (ih h')
  | advance expects _ ih => exact .advance expects (ih h')

/-- The initial item of a rule moves over the body. -/
theorem advance_take {id : RuleId} {rule : Rule} (known : g.rules.get? id = some rule)
    (l : TerminalId) (marker : Nat) (h : marker ≤ rule.body.length) :
    g.Traces (Item.initial id) l (rule.body.take marker) ⟨id, marker⟩ l := by
  induction marker with
  | zero => exact .refl _ _
  | succ marker ih =>
      have hnext : g.next? ⟨id, marker⟩ = some rule.body[marker] := by
        rw [next?, bodyOf_eq known]
        exact List.getElem?_eq_getElem h
      rw [← List.take_append_getElem h]
      exact (ih (Nat.le_of_succ_le h)).trans (.advance hnext (.refl _ _))

/-- Items expect declared symbols only. -/
theorem declared (hg : g.IsClosed) (h : g.Traces item l symbols last t) :
    ∀ symbol ∈ symbols, g.Declares symbol := by
  induction h with
  | refl => simp
  | spawn _ _ _ _ ih => exact ih
  | advance expects _ ih =>
      intro symbol hsymbol
      rcases List.mem_cons.mp hsymbol with rfl | hsymbol
      · exact hg.declares_bodyOf _ _ (List.mem_of_getElem? expects)
      · exact ih symbol hsymbol

end Traces

/-! ## Traces keep items valid -/

theorem isValidItem_of_derivesBy {rule : Rule} {ids : List RuleId} {before : List Symbol}
    {after : List TerminalId} (known : g.rules.get? item.rule = some rule) (hmarker : item.marker = 0)
    (derived : g.DerivesBy .rightmost ids [.nonterminal g.start]
      (before ++ .nonterminal rule.head :: sentence after)) :
    g.IsValidItem before item (firstTerminal after) := by
  have hvalid := IsValidItem.intro known (hmarker ▸ Nat.zero_le _) derived
  rwa [hmarker, List.take_zero, List.append_nil] at hvalid

theorem isValidItem_start {id : RuleId} {rule : Rule} (known : g.rules.get? id = some rule)
    (hhead : rule.head = g.start) : g.IsValidItem [] (Item.initial id) endOfInput := by
  have hderived : g.DerivesBy .rightmost [] [.nonterminal g.start]
      ([] ++ .nonterminal rule.head :: sentence []) := by
    rw [hhead]
    exact .nil _
  exact isValidItem_of_derivesBy known rfl hderived

/-- What an item spawns is valid where the item is. -/
theorem IsValidItem.spawn (hg : g.IsClosed) (hproductive : g.IsProductive) {n : NonterminalId}
    (h : g.IsValidItem symbols item l) (hnext : g.next? item = some (.nonterminal n))
    (hj : j ∈ g.initialItems n) (hstarts : g.StartsWith u (g.afterNext item ++ [.terminal l])) :
    g.IsValidItem symbols j u := by
  obtain ⟨rule, hrule, hhead, hmarker⟩ := mem_initialItems.mp hj
  cases h with
  | @intro parent item ids before after known inside derived =>
      have hdeclared : ∀ symbol ∈ g.afterNext item, g.Declares symbol := fun symbol hs =>
        hg.declares_bodyOf item symbol (List.mem_of_mem_drop hs)
      obtain ⟨word, hword, rfl⟩ := hstarts.exists_word hg hproductive hdeclared
      obtain ⟨more, hmore⟩ := hword.exists_derivesBy .rightmost
      have hbody : parent.body =
          parent.body.take item.marker ++ .nonterminal rule.head :: g.afterNext item := by
        rw [hhead, ← drop_marker_of_next? hnext, bodyOf_eq known, List.take_append_drop]
      -- the rule of the item is applied, and what comes behind the nonterminal is derived
      have hexpand : g.ExpandsIn .rightmost item.rule
          (before ++ .nonterminal parent.head :: sentence after)
          ((before ++ parent.body.take item.marker ++ [.nonterminal rule.head]) ++
            g.afterNext item ++ sentence after) := by
        have hexpand := ExpandsIn.rightmost known before after
        rw [hbody] at hexpand
        simpa using hexpand
      have hderived := derived.trans
        (.cons hexpand ((hmore.rightmost_behind _).rightmost_inFrontOf after))
      rw [List.append_assoc, ← sentence_append, List.append_assoc, List.singleton_append] at hderived
      exact isValidItem_of_derivesBy hrule hmarker hderived

theorem IsValidItem.advance {s : Symbol} (h : g.IsValidItem symbols item l)
    (hnext : g.next? item = some s) : g.IsValidItem (symbols ++ [s]) item.advance l := by
  cases h with
  | @intro rule item ids before after known inside derived =>
      rw [next?, bodyOf_eq known] at hnext
      obtain ⟨hlt, rfl⟩ := List.getElem?_eq_some_iff.mp hnext
      have hvalid : g.IsValidItem (before ++ rule.body.take item.advance.marker) item.advance _ :=
        .intro known hlt derived
      rwa [List.append_assoc, List.take_append_getElem hlt]

/-- Every item on a trace from a valid item is valid. -/
theorem Traces.isValidItem (hg : g.IsClosed) (hproductive : g.IsProductive)
    (h : g.Traces item l more last t) (hitem : g.IsValidItem symbols item l) :
    g.IsValidItem (symbols ++ more) last t := by
  induction h generalizing symbols with
  | refl => rwa [List.append_nil]
  | spawn expects initial starts _ ih =>
      exact ih (hitem.spawn hg hproductive expects initial starts)
  | @advance item last s l t more expects _ ih =>
      have hadvanced := ih (hitem.advance expects)
      rwa [List.append_assoc] at hadvanced

/-! ## Traces to valid items -/

theorem next?_of_split {id : RuleId} {rule : Rule} {before after : List Symbol} {s : Symbol}
    (known : g.rules.get? id = some rule) (hsplit : rule.body = before ++ s :: after) :
    g.next? ⟨id, before.length⟩ = some s ∧ g.afterNext ⟨id, before.length⟩ = after := by
  have hbody : g.bodyOf ⟨id, before.length⟩ = before ++ s :: after := by
    rw [bodyOf_eq known, hsplit]
  constructor
  · simp [next?, hbody]
  · simp [afterNext, hbody]

/-- Whether traces from the item lead to the rules of each nonterminal of the form, in
front of all words of what comes behind it. -/
def TracesForm (g : Grammar) (item : Item) (l : TerminalId) (form : List Symbol) : Prop :=
  ∀ {before after n word j}, form = before ++ .nonterminal n :: after →
    g.Derives after (sentence word) → j ∈ g.initialItems n →
    g.Traces item l before j (firstTerminal word)

/-- Applying a rule to the rightmost nonterminal keeps the traces: those to the
nonterminals of its body come through the items of the rule. -/
theorem TracesForm.expandsIn {id : RuleId} {form next : List Symbol} (h : g.TracesForm item l form)
    (hexpands : g.ExpandsIn .rightmost id form next) : g.TracesForm item l next := by
  intro before after n word j hsplit hword hj
  cases hexpands with
  | @rightmost _ rule known front back =>
      rcases cons_of_append_eq hsplit with ⟨middle, hfront, rfl⟩ | ⟨middle, -, hback⟩
      · rcases cons_of_append_eq hfront with ⟨middle, rfl, rfl⟩ | ⟨seen, rfl, hbody⟩
        · -- the nonterminal has been there before
          apply h (List.append_assoc _ _ _) ?_ hj
          exact .step (.intro known middle (sentence back)) hword
        · obtain ⟨here, there, hsplit, hhere, hthere⟩ := derives_append_iff.mp hword
          rw [derives_sentence_iff.mp hthere] at hsplit
          obtain ⟨first, last, rfl, rfl, hlast⟩ := sentence_eq_append hsplit
          rw [← sentence_injective hlast]
          have hparent : g.Traces item l front (Item.initial id) (firstTerminal back) :=
            h rfl (.refl _) (mem_initialItems.mpr ⟨rule, known, rfl, rfl⟩)
          have hmoves := Traces.advance_take known (firstTerminal back) seen.length (by simp [hbody])
          rw [hbody, List.take_left] at hmoves
          obtain ⟨hnext, hafter⟩ := next?_of_split known hbody
          have hstarts := hhere.startsWith_firstTerminal back
          rw [← hafter] at hstarts
          have htrace := (hparent.trans hmoves).trans (.spawn hnext hj hstarts (.refl _ _))
          rwa [List.append_nil] at htrace
      · have hmem : .nonterminal n ∈ sentence back := by simp [hback]
        exact absurd hmem (not_nonterminal_mem_sentence n back)

theorem TracesForm.derivesBy {ids : List RuleId} {form next : List Symbol}
    (h : g.TracesForm item l form) (hderives : g.DerivesBy .rightmost ids form next) :
    g.TracesForm item l next := by
  induction hderives with
  | nil => exact h
  | cons first _ ih => exact ih (h.expandsIn first)

theorem tracesForm_start (hitem : ∀ j ∈ g.initialItems g.start, j = item) :
    g.TracesForm item endOfInput [.nonterminal g.start] := by
  intro before after n word j hsplit hword hj
  rcases List.cons_eq_append_iff.mp hsplit with ⟨rfl, hcons⟩ | ⟨rest, -, hnil⟩
  · obtain ⟨hn, rfl⟩ := List.cons.inj hcons
    rw [Symbol.nonterminal.inj hn] at hj
    have hnil : word = [] := sentence_injective ((derives_sentence_iff).mp hword)
    rw [hnil, hitem j hj]
    exact .refl _ _
  · simp at hnil

/-- Traces lead to all valid items. -/
theorem IsValidItem.traces (hitem : ∀ j ∈ g.initialItems g.start, j = item)
    (h : g.IsValidItem symbols last t) : g.Traces item endOfInput symbols last t := by
  cases h with
  | @intro rule last ids before after known inside derived =>
      have hform : g.TracesForm item endOfInput _ :=
        TracesForm.derivesBy (tracesForm_start hitem) derived
      have hhead : Item.initial last.rule ∈ g.initialItems rule.head :=
        mem_initialItems.mpr ⟨rule, known, rfl, rfl⟩
      exact (hform rfl (.refl _) hhead).trans (Traces.advance_take known _ _ inside)

end Grammar

end GrammarAnalysis

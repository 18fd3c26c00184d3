import GrammarAnalysis.Proofs.Item.Traces
import GrammarAnalysis.Proofs.Lookahead.Passes

/-!
# What FIRST and FOLLOW sets mean for derivations

The FIRST set of a sentence holds the terminals that start the forms derived from
it.  The FOLLOW set of a nonterminal holds the terminals that come right after it
in a form derived from some nonterminal, and the end of input if the nonterminal can
come last in a sentential form of the grammar.

For FOLLOW sets a derivation is read from its first form on.  Every expansion keeps
the invariant `IsFollowedIn`: each nonterminal of the form is followed by all that the
symbols behind it can start with, not only by the terminal that stands next to it.
The symbols behind a nonterminal can vanish later, so that the invariant has to speak
of what they start with.
-/

namespace GrammarAnalysis

namespace FirstSets

variable {g : Grammar}

/-- The set of a symbol is the set of the sentence that it is. -/
theorem get?_ofGrammar (hg : g.IsClosed) {symbol : Symbol} (h : g.Declares symbol) :
    (ofGrammar g).get? symbol = some ((ofGrammar g).ofSentence [symbol]) := by
  obtain ⟨set, hset⟩ := OrderedMap.mem_keys_iff.mp (((sound_ofGrammar hg).mem_keys symbol).mpr h)
  have hempty : (∅ : NatSet) ∪ set.terminals = set.terminals := NatSet.ext fun t => by simp
  rw [get?, ofSentence, ofSentence, hset]
  obtain ⟨terminals, epsilon⟩ := set
  cases epsilon with
  | false => rfl
  | true => simp [TerminalSet.onlyEpsilon, TerminalSet.addTerminals, hempty]

/-- The set of a rule is the set of its body. -/
theorem ofRule?_ofGrammar (hg : g.IsClosed) {id : RuleId} {rule : Rule}
    (hrule : g.rules.get? id = some rule) :
    (ofGrammar g).ofRule? id = some ((ofGrammar g).ofSentence rule.body) := by
  have hidle := congrArg (fun first => first.rules.get? id) (absorb_ofGrammar hg hrule)
  simp only [absorb, OrderedMap.get?_upsert, if_true] at hidle
  have hwithin := (sound_ofGrammar hg).rule id rule _ hrule hidle.symm
  rw [ofRule?, ← hidle]
  apply congrArg some
  generalize ((ofGrammar g).rules.get? id).getD ∅ = old at hwithin ⊢
  have hterminals : old.terminals ∪ ((ofGrammar g).ofSentence rule.body).terminals =
      ((ofGrammar g).ofSentence rule.body).terminals := by
    refine NatSet.ext fun t => ⟨fun ht => ?_, fun ht => NatSet.mem_union.mpr (Or.inr ht)⟩
    exact (mem_ofSentence_iff hg (hg.body_declared hrule)).mpr (hwithin.2 t ht)
  have hmark : (old.epsilon || ((ofGrammar g).ofSentence rule.body).epsilon) =
      ((ofGrammar g).ofSentence rule.body).epsilon := by
    rw [Bool.eq_iff_iff]
    refine ⟨fun he => ?_, fun he => by rw [he, Bool.or_true]⟩
    exact (epsilon_ofSentence_iff hg).mpr (hwithin.1 he)
  exact congr (congrArg TerminalSet.mk hterminals) hmark

end FirstSets

namespace Grammar

variable {g : Grammar}

theorem eq_of_singleton_split {s u : Symbol} {front back : List Symbol}
    (h : [s] = front ++ u :: back) : front = [] ∧ s = u ∧ back = [] := by
  cases front with
  | nil => simpa [eq_comm] using h
  | cons v front => simp at h

/-- Whether each nonterminal of the form, with `tail` behind the form, is followed by all that
the symbols behind it can start with. -/
def IsFollowedIn (g : Grammar) (tail form : List Symbol) : Prop :=
  ∀ front n back t, form = front ++ .nonterminal n :: back → g.StartsWith t (back ++ tail) →
    g.Follows n t

theorem isFollowedIn_singleton (n : NonterminalId) : g.IsFollowedIn [] [.nonterminal n] := by
  intro front m back t hsplit hstarts
  obtain ⟨-, -, rfl⟩ := eq_of_singleton_split hsplit
  cases hstarts

theorem isFollowedIn_start : g.IsFollowedIn [.terminal endOfInput] [.nonterminal g.start] := by
  intro front m back t hsplit hstarts
  obtain ⟨-, hm, rfl⟩ := eq_of_singleton_split hsplit
  rw [← Symbol.nonterminal.inj hm, startsWith_singleton_iff.mp hstarts]
  exact .start

/-- An expansion keeps the nonterminals followed: what is behind the body was behind the head,
and the body starts with what its head starts with. -/
theorem IsFollowedIn.expands {tail form next : List Symbol} {id : RuleId}
    (h : g.IsFollowedIn tail form) (hexpands : g.Expands id form next) :
    g.IsFollowedIn tail next := by
  cases hexpands with
  | @intro rule known before after =>
      intro front n back t hsplit hstarts
      have hbehind : ∀ u, g.StartsWith u (after ++ tail) → g.Follows rule.head u :=
        fun u hu => h before rule.head after u rfl hu
      rw [List.append_assoc] at hsplit
      -- The nonterminal stands in front of the body, in it, or behind it.
      rcases cons_of_append_eq hsplit with ⟨mid, hbefore, hback⟩ | ⟨mid, -, hsplit⟩
      · refine h front n (mid ++ .nonterminal rule.head :: after) t (by simp [hbefore]) ?_
        have hexpands := Expands.intro known mid (after ++ tail)
        rw [hback] at hstarts
        simpa using hexpands.startsWith (by simpa using hstarts)
      · rcases cons_of_append_eq hsplit with ⟨inner, hbody, hback⟩ | ⟨inner, hmid, hafter⟩
        · rw [hback, List.append_assoc] at hstarts
          rcases startsWith_append_iff.mp hstarts with hinner | ⟨hinner, hout⟩
          · exact .starts known hbody hinner
          · exact .inherited known hbody hinner (hbehind t hout)
        · refine h (before ++ .nonterminal rule.head :: inner) n back t ?_ hstarts
          rw [hafter, List.append_assoc, List.cons_append]

theorem IsFollowedIn.derives {tail form last : List Symbol} (h : g.IsFollowedIn tail form)
    (hderives : g.Derives form last) : g.IsFollowedIn tail last := by
  induction hderives with
  | refl => exact h
  | step first _ ih => exact ih (h.expands first)

/-- What follows a nonterminal does so in a derived form. -/
theorem Follows.exists_derives (hg : g.IsClosed) {n : NonterminalId} {t : TerminalId}
    (h : g.Follows n t) :
    (∃ m ∈ g.nonterminals.keys, ∃ before after,
        g.Derives [.nonterminal m] (before ++ .nonterminal n :: .terminal t :: after)) ∨
      t = endOfInput ∧ ∃ before, g.Derives [.nonterminal g.start] (before ++ [.nonterminal n]) := by
  induction h with
  | start => exact Or.inr ⟨rfl, [], .refl _⟩
  | @starts id rule before after n t known split starts =>
      obtain ⟨rest, hrest⟩ := starts.derives
      have hbody : g.Derives [.nonterminal rule.head] (before ++ .nonterminal n :: after) :=
        split ▸ Derives.of_rule known
      have hbehind := (hrest.append_left [.nonterminal n]).append_left before
      exact Or.inl ⟨rule.head, hg.head_declared known, before, rest, hbody.trans hbehind⟩
  | @inherited id rule before after n t known split vanishes _ ih =>
      have hbody : g.Derives [.nonterminal rule.head] (before ++ .nonterminal n :: after) :=
        split ▸ Derives.of_rule known
      have hbehind := (vanishes.derives.append_left [.nonterminal n]).append_left before
      have hhead : g.Derives [.nonterminal rule.head] (before ++ [.nonterminal n]) :=
        hbody.trans hbehind
      rcases ih with ⟨m, hm, front, back, hform⟩ | ⟨rfl, front, hform⟩
      · have hlast := hform.trans ((hhead.append_right (.terminal t :: back)).append_left front)
        refine Or.inl ⟨m, hm, front ++ before, back, ?_⟩
        simpa using hlast
      · have hlast := hform.trans (hhead.append_left front)
        refine Or.inr ⟨rfl, front ++ before, ?_⟩
        simpa using hlast

/-- A terminal follows a nonterminal exactly if it does so in a derived form. -/
theorem follows_iff_exists_derives (hg : g.IsClosed) {n : NonterminalId} {t : TerminalId} :
    g.Follows n t ↔
      (∃ m ∈ g.nonterminals.keys, ∃ before after,
        g.Derives [.nonterminal m] (before ++ .nonterminal n :: .terminal t :: after)) ∨
      t = endOfInput ∧ ∃ before, g.Derives [.nonterminal g.start] (before ++ [.nonterminal n]) := by
  constructor
  · exact Follows.exists_derives hg
  · rintro (⟨m, -, before, after, hform⟩ | ⟨rfl, before, hform⟩)
    · exact (isFollowedIn_singleton m).derives hform _ _ _ t rfl (.here _)
    · exact isFollowedIn_start.derives hform _ _ _ endOfInput rfl (.here _)

/-! ## Grammars that are read from text -/

/-- For every grammar that is read from text, the loop for FIRST sets ends.  The set of a
sentence of declared symbols holds a terminal exactly if the sentence derives a form that
starts with it, and the marker exactly if the sentence derives the empty form.  The sets of
symbols and rules are the sets of their sentences, and one more pass changes nothing
and reports no change. -/
theorem firstSets_exact {text : String} {g : Grammar} (hg : ofText text = .ok g) :
    Settles (FirstSets.pass g) (.initial g) (.ofGrammar g) ∧
      (∀ α, (∀ symbol ∈ α, g.Declares symbol) →
        (∀ t, ((FirstSets.ofGrammar g).ofSentence α).contains t = true ↔
          ∃ rest, g.Derives α (.terminal t :: rest)) ∧
        (((FirstSets.ofGrammar g).ofSentence α).epsilon = true ↔ g.Derives α [])) ∧
      (∀ symbol, g.Declares symbol →
        (FirstSets.ofGrammar g).get? symbol = some ((FirstSets.ofGrammar g).ofSentence [symbol])) ∧
      (∀ id rule, g.rules.get? id = some rule →
        (FirstSets.ofGrammar g).ofRule? id = some ((FirstSets.ofGrammar g).ofSentence rule.body)) ∧
      FirstSets.pass g (.ofGrammar g) = (.ofGrammar g, false) := by
  have hclosed := (isPlain_of_ofText hg).isClosed
  refine ⟨FirstSets.settles_ofGrammar hclosed, fun α hα => ⟨fun t => ?_, ?_⟩,
    fun symbol => FirstSets.get?_ofGrammar hclosed,
    fun id rule => FirstSets.ofRule?_ofGrammar hclosed, FirstSets.pass_ofGrammar hclosed⟩
  · rw [TerminalSet.contains, decide_eq_true_eq, FirstSets.mem_ofSentence_iff hclosed hα]
    exact startsWith_iff_derives
  · rw [FirstSets.epsilon_ofSentence_iff hclosed]
    exact vanishes_iff_derives

/-- A left recursion behind nonterminals that vanish. -/
theorem firstSets_exact_vanishing :
    ∃ g, ofText "S -> B S a | epsilon\nB -> b | epsilon\n" = .ok g ∧
      Settles (FirstSets.pass g) (.initial g) (.ofGrammar g) ∧
      (∃ rest, g.Derives [.nonterminal 2, .nonterminal 1] (.terminal 1 :: rest)) ∧
      g.Derives [.nonterminal 2, .nonterminal 1] [] := by
  have hcomputed : (ofText "S -> B S a | epsilon\nB -> b | epsilon\n").toOption.map
      (fun g => (g.nonterminals.keys, (FirstSets.ofGrammar g).ofSentence
        [.nonterminal 2, .nonterminal 1])) =
      some ([1, 2], ⟨NatSet.ofList [1, 2], true⟩) := by decide +kernel
  obtain ⟨g, hg, hcomputed⟩ := exists_of_ofText hcomputed
  obtain ⟨hkeys, hset⟩ := Prod.mk.inj hcomputed
  have hdeclared : ∀ symbol ∈ [Symbol.nonterminal 2, .nonterminal 1], g.Declares symbol := by
    simp [Declares, hkeys]
  obtain ⟨hsettles, hexact, -⟩ := firstSets_exact hg
  obtain ⟨hstarts, hempty⟩ := hexact _ hdeclared
  rw [hset] at hstarts hempty
  exact ⟨g, hg, hsettles, (hstarts 1).mp (by decide), hempty.mp rfl⟩

/-- For every grammar that is read from text, the loop for FOLLOW sets ends.  The set of a
nonterminal holds a terminal exactly if some nonterminal, reachable or not, derives a form in
which the terminal comes right after it, or if the terminal is the end of input and the start
symbol derives a form in which the nonterminal comes last.  One more pass changes nothing. -/
theorem followSets_exact {text : String} {g : Grammar} (hg : ofText text = .ok g) :
    Settles (FollowSets.pass g (.ofGrammar g)) (.initial g) (.ofGrammar g (.ofGrammar g)) ∧
      (∀ n ∈ g.nonterminals.keys, ∃ set,
        (FollowSets.ofGrammar g (.ofGrammar g)).get? n = some set ∧ ∀ t, t ∈ set ↔
          (∃ m ∈ g.nonterminals.keys, ∃ before after,
            g.Derives [.nonterminal m] (before ++ .nonterminal n :: .terminal t :: after)) ∨
          t = endOfInput ∧
            ∃ before, g.Derives [.nonterminal g.start] (before ++ [.nonterminal n])) ∧
      FollowSets.pass g (.ofGrammar g) (.ofGrammar g (.ofGrammar g)) =
        (.ofGrammar g (.ofGrammar g), false) := by
  have hclosed := (isPlain_of_ofText hg).isClosed
  refine ⟨FollowSets.settles_ofGrammar hclosed, fun n hn => ?_, FollowSets.pass_ofGrammar hclosed⟩
  rw [← (FollowSets.sound_ofGrammar hclosed).keys_eq] at hn
  obtain ⟨set, hset⟩ := OrderedMap.mem_keys_iff.mp hn
  refine ⟨set, hset, fun t => ?_⟩
  have hexact := FollowSets.mem_follow_iff hclosed (n := n) (t := t)
  rw [FollowSets.get?, hset, Option.getD_some] at hexact
  exact hexact.trans (follows_iff_exists_derives hclosed)

/-- A terminal that comes after a nonterminal in the forms of an unreachable one only, and a
nonterminal that cannot come last. -/
theorem followSets_exact_unreachable :
    ∃ g, ofText "S -> A b\nA -> a | epsilon\nC -> A c\n" = .ok g ∧
      (∃ m ∈ g.nonterminals.keys, ∃ before after,
        g.Derives [.nonterminal m] (before ++ .nonterminal 2 :: .terminal 3 :: after)) ∧
      ¬ ∃ before, g.Derives [.nonterminal g.start] (before ++ [.nonterminal 2]) := by
  have hcomputed : (ofText "S -> A b\nA -> a | epsilon\nC -> A c\n").toOption.map
      (fun g => (g.nonterminals.keys, (FollowSets.ofGrammar g (.ofGrammar g)).get? 2)) =
      some ([1, 2, 3], some (NatSet.ofList [1, 3])) := by decide +kernel
  obtain ⟨g, hg, hcomputed⟩ := exists_of_ofText hcomputed
  obtain ⟨hkeys, hset⟩ := Prod.mk.inj hcomputed
  obtain ⟨-, hexact, -⟩ := followSets_exact hg
  obtain ⟨set, hget, hexact⟩ := hexact 2 (by rw [hkeys]; decide)
  rw [hset, Option.some.injEq] at hget
  rw [← hget] at hexact
  refine ⟨g, hg, ((hexact 3).mp (by decide)).resolve_right ?_, fun hlast => ?_⟩
  · rintro ⟨hend, -⟩
    exact absurd hend (by decide)
  · have hmem := (hexact endOfInput).mpr (Or.inr ⟨rfl, hlast⟩)
    exact absurd hmem (by decide)

end Grammar

end GrammarAnalysis

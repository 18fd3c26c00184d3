import GrammarAnalysis.Grammar.Reader
import GrammarAnalysis.Grammar.WellFormed
import GrammarAnalysis.Proofs.Collections.Maps

/-!
# Grammars that are read from text

Reading a text declares symbols and adds rules one by one.  Every step keeps
the definition well formed and leaves the reserved numbers alone, so a grammar
that is read is plain: it is well formed, its numbers start from 1, and no rule
mentions the end of input.
-/

namespace GrammarAnalysis

/-- A computation in two steps succeeds only if both steps do. -/
theorem exists_of_bind_eq_ok {ε α β : Type} {x : Except ε α} {f : α → Except ε β} {b : β}
    (h : (x >>= f) = .ok b) : ∃ a, x = .ok a ∧ f a = .ok b := by
  cases x with
  | error e => contradiction
  | ok a => exact ⟨a, rfl, h⟩

/-- What is computed from a result is computed without an error. -/
theorem exists_of_map_toOption {ε α β : Type} {result : Except ε α} {f : α → β} {b : β}
    (h : result.toOption.map f = some b) : ∃ a, result = .ok a ∧ f a = b := by
  cases result with
  | error e => contradiction
  | ok a => exact ⟨a, rfl, Option.some.inj h⟩

/-- What may be computed from a result comes from a result. -/
theorem exists_of_bind_toOption {ε α β : Type} {result : Except ε α} {f : α → Option β} {b : β}
    (h : result.toOption.bind f = some b) : ∃ a, result = .ok a ∧ f a = some b := by
  cases result with
  | error e => contradiction
  | ok a => exact ⟨a, rfl, h⟩

theorem drawing_eq_ok_iff {α : Type} {number : Nat} {made a : α} :
    drawing number made = .ok a ↔ number < lastNumber ∧ made = a := by
  rw [drawing]
  split <;> simp [*]

/-- A well-formed grammar that leaves the reserved symbols and the reserved rule
to its augmentation. -/
structure Grammar.IsPlain (g : Grammar) : Prop extends g.WellFormed where
  nonterminals_pos : ∀ n ∈ g.nonterminals.keys, n ≠ augmentedStart
  rules_pos : ∀ id ∈ g.rules.keys, id ≠ acceptRule
  endOfInput_unused : ∀ rule ∈ g.rules.values, .terminal endOfInput ∉ rule.body

namespace Definition

/-- A well-formed definition whose grammar is plain. -/
structure IsPlain (d : Definition) : Prop extends d.WellFormed where
  start_declared : ∀ n, d.start = some n → n ∈ d.nonterminals.keys
  endOfInput_named : d.terminals.get? endOfInput = some endOfInputName
  nextTerminal_pos : 0 < d.nextTerminal
  nextNonterminal_pos : 0 < d.nextNonterminal
  nextRule_pos : 0 < d.nextRule
  nonterminals_pos : ∀ n ∈ d.nonterminals.keys, n ≠ augmentedStart
  rules_pos : ∀ id ∈ d.rules.keys, id ≠ acceptRule
  endOfInput_unused : ∀ rule ∈ d.rules.values, .terminal endOfInput ∉ rule.body

/-- Whether every symbol that is declared in one definition is declared in the other. -/
def Extends (d d' : Definition) : Prop :=
  ∀ symbol, d.declaresSymbol symbol = true → d'.declaresSymbol symbol = true

variable {d d' : Definition}

theorem Extends.refl (d : Definition) : d.Extends d := fun _ h => h

theorem Extends.trans {d'' : Definition} (h : d.Extends d') (h' : d'.Extends d'') :
    d.Extends d'' :=
  fun symbol hs => h' symbol (h symbol hs)

theorem declaresSymbol_terminal {t : TerminalId} :
    d.declaresSymbol (.terminal t) = true ↔ t ∈ d.terminals.keys :=
  OrderedMap.contains_iff

theorem declaresSymbol_nonterminal {n : NonterminalId} :
    d.declaresSymbol (.nonterminal n) = true ↔ n ∈ d.nonterminals.keys :=
  OrderedMap.contains_iff

/-! ## Declaring symbols -/

namespace WellFormed

theorem nextTerminal_not_mem (h : d.WellFormed) : d.nextTerminal ∉ d.terminals.keys :=
  fun hmem => Nat.lt_irrefl _ (h.terminals_below _ hmem)

theorem nextNonterminal_not_mem (h : d.WellFormed) : d.nextNonterminal ∉ d.nonterminals.keys :=
  fun hmem => Nat.lt_irrefl _ (h.nonterminals_below _ hmem)

theorem nextRule_not_mem (h : d.WellFormed) : d.nextRule ∉ d.rules.keys :=
  fun hmem => Nat.lt_irrefl _ (h.rules_below _ hmem)

end WellFormed

theorem names_insertTerminal (h : d.WellFormed) (name : String) :
    (d.terminals.insert d.nextTerminal name).values ++ d.nonterminals.values =
      d.terminals.values ++ name :: d.nonterminals.values := by
  rw [OrderedMap.values_insert_of_not_mem h.nextTerminal_not_mem]
  simp

/-- A successful declaration of a terminal uses the next number, which is not the last one,
under a new name. -/
theorem declareTerminal_eq_ok {name : String} {t : TerminalId}
    (h : d.declareTerminal name = .ok (t, d')) :
    name ∉ d.names ∧ d.nextTerminal < lastNumber ∧ t = d.nextTerminal ∧
      d' = { d with
        terminals := d.terminals.insert d.nextTerminal name
        nextTerminal := d.nextTerminal + 1 } := by
  rw [declareTerminal] at h
  split at h
  · contradiction
  · next hfresh =>
    obtain ⟨hleft, hmade⟩ := drawing_eq_ok_iff.mp h
    obtain ⟨rfl, rfl⟩ := Prod.mk.inj hmade
    exact ⟨by simpa [declares] using hfresh, hleft, rfl, rfl⟩

theorem declareNonterminal_eq_ok {name : String} {n : NonterminalId}
    (h : d.declareNonterminal name = .ok (n, d')) :
    name ∉ d.names ∧ d.nextNonterminal < lastNumber ∧ n = d.nextNonterminal ∧
      d' = { d with
        nonterminals := d.nonterminals.insert d.nextNonterminal name
        nextNonterminal := d.nextNonterminal + 1 } := by
  rw [declareNonterminal] at h
  split at h
  · contradiction
  · next hfresh =>
    obtain ⟨hleft, hmade⟩ := drawing_eq_ok_iff.mp h
    obtain ⟨rfl, rfl⟩ := Prod.mk.inj hmade
    exact ⟨by simpa [declares] using hfresh, hleft, rfl, rfl⟩

theorem extends_addTerminal (hd : d.WellFormed) (name : String) :
    d.Extends (d.addTerminal name).2 := by
  intro symbol hs
  cases symbol with
  | terminal u =>
      rw [declaresSymbol_terminal] at hs ⊢
      rw [addTerminal, OrderedMap.keys_insert_of_not_mem hd.nextTerminal_not_mem]
      exact List.mem_append_left _ hs
  | nonterminal n => exact hs

theorem extends_addNonterminal (hd : d.WellFormed) (name : String) :
    d.Extends (d.addNonterminal name).2 := by
  intro symbol hs
  cases symbol with
  | terminal u => exact hs
  | nonterminal m =>
      rw [declaresSymbol_nonterminal] at hs ⊢
      rw [addNonterminal, OrderedMap.keys_insert_of_not_mem hd.nextNonterminal_not_mem]
      exact List.mem_append_left _ hs

theorem extends_declareTerminal {name : String} {t : TerminalId} (hd : d.WellFormed)
    (h : d.declareTerminal name = .ok (t, d')) : d.Extends d' := by
  obtain ⟨-, -, -, rfl⟩ := declareTerminal_eq_ok h
  exact extends_addTerminal hd name

theorem WellFormed.addTerminal {name : String} (hd : d.WellFormed) (hname : name ∉ d.names) :
    (d.addTerminal name).2.WellFormed := by
  have hextends := extends_addTerminal hd name
  refine { hd with
    names_nodup := ?_
    terminals_below := ?_
    rules_declared := ?_ }
  · have hnodup : (name :: d.names).Nodup := List.nodup_cons.mpr ⟨hname, hd.names_nodup⟩
    rw [Definition.addTerminal, names, names_insertTerminal hd]
    exact List.perm_middle.nodup_iff.mpr hnodup
  · intro u hu
    rw [Definition.addTerminal, OrderedMap.keys_insert_of_not_mem hd.nextTerminal_not_mem,
      List.mem_append] at hu
    rcases hu with hu | hu
    · exact Nat.lt_succ_of_lt (hd.terminals_below u hu)
    · rw [List.mem_singleton.mp hu]
      exact Nat.lt_succ_self _
  · intro rule hrule
    obtain ⟨hhead, hbody⟩ := hd.rules_declared rule hrule
    exact ⟨hextends _ hhead, fun symbol hs => hextends _ (hbody symbol hs)⟩

theorem WellFormed.addNonterminal {name : String} (hd : d.WellFormed) (hname : name ∉ d.names) :
    (d.addNonterminal name).2.WellFormed := by
  have hextends := extends_addNonterminal hd name
  refine { hd with
    names_nodup := ?_
    nonterminals_below := ?_
    rules_declared := ?_ }
  · have hnodup : (d.names ++ [name]).Nodup := by
      refine List.nodup_append.mpr ⟨hd.names_nodup, by simp, ?_⟩
      intro a ha b hb hab
      rw [List.mem_singleton.mp hb] at hab
      exact hname (hab ▸ ha)
    rw [Definition.addNonterminal, names,
      OrderedMap.values_insert_of_not_mem hd.nextNonterminal_not_mem]
    simpa [names] using hnodup
  · intro m hm
    rw [Definition.addNonterminal,
      OrderedMap.keys_insert_of_not_mem hd.nextNonterminal_not_mem, List.mem_append] at hm
    rcases hm with hm | hm
    · exact Nat.lt_succ_of_lt (hd.nonterminals_below m hm)
    · rw [List.mem_singleton.mp hm]
      exact Nat.lt_succ_self _
  · intro rule hrule
    obtain ⟨hhead, hbody⟩ := hd.rules_declared rule hrule
    exact ⟨hextends _ hhead, fun symbol hs => hextends _ (hbody symbol hs)⟩

theorem WellFormed.declareTerminal {name : String} {t : TerminalId} (hd : d.WellFormed)
    (h : d.declareTerminal name = .ok (t, d')) : d'.WellFormed := by
  obtain ⟨hname, -, -, rfl⟩ := declareTerminal_eq_ok h
  exact hd.addTerminal hname

theorem WellFormed.declareNonterminal {name : String} {n : NonterminalId} (hd : d.WellFormed)
    (h : d.declareNonterminal name = .ok (n, d')) : d'.WellFormed := by
  obtain ⟨hname, -, -, rfl⟩ := declareNonterminal_eq_ok h
  exact hd.addNonterminal hname

/-! ## Adding rules -/

/-- A rule has no number if it has not been added. -/
theorem ruleId?_eq_none_iff {rule : Rule} : d.ruleId? rule = none ↔ rule ∉ d.rules.values := by
  rw [ruleId?, Option.map_eq_none_iff, List.find?_eq_none]
  constructor
  · intro hall hrule
    obtain ⟨entry, hentry, heq⟩ := List.mem_map.mp hrule
    exact hall entry hentry (decide_eq_true heq)
  · intro hnew entry hentry heq
    exact hnew (List.mem_map.mpr ⟨entry, hentry, of_decide_eq_true heq⟩)

/-- A rule that is added gets the next number, which is not the last one. -/
theorem addRule_eq_ok {head : NonterminalId} {body : List Symbol} {id : RuleId}
    (h : d.addRule head body = .ok (id, d')) :
    (⟨head, body⟩ : Rule) ∉ d.rules.values ∧ d.nextRule < lastNumber ∧ id = d.nextRule ∧
      d' = { d with
        rules := d.rules.insert d.nextRule ⟨head, body⟩, nextRule := d.nextRule + 1 } := by
  simp only [addRule] at h
  split at h
  · next hnew =>
    obtain ⟨hleft, hmade⟩ := drawing_eq_ok_iff.mp h
    obtain ⟨rfl, rfl⟩ := Prod.mk.inj hmade
    exact ⟨ruleId?_eq_none_iff.mp hnew, hleft, rfl, rfl⟩
  · split at h <;> contradiction

theorem WellFormed.appendRule {rule : Rule} (hd : d.WellFormed) (hnew : rule ∉ d.rules.values)
    (hhead : d.declaresSymbol (.nonterminal rule.head) = true)
    (hbody : ∀ symbol ∈ rule.body, d.declaresSymbol symbol = true) :
    (d.appendRule rule).2.WellFormed := by
  have hvalues := OrderedMap.values_insert_of_not_mem hd.nextRule_not_mem rule
  refine { hd with
    rules_below := ?_
    rules_nodup := ?_
    rules_declared := ?_ }
  · intro i hi
    rw [Definition.appendRule, OrderedMap.keys_insert_of_not_mem hd.nextRule_not_mem,
      List.mem_append] at hi
    rcases hi with hi | hi
    · exact Nat.lt_succ_of_lt (hd.rules_below i hi)
    · rw [List.mem_singleton.mp hi]
      exact Nat.lt_succ_self _
  · rw [Definition.appendRule, hvalues]
    refine List.nodup_append.mpr ⟨hd.rules_nodup, by simp, ?_⟩
    intro a ha b hb hab
    rw [List.mem_singleton.mp hb] at hab
    exact hnew (hab ▸ ha)
  · intro rule' hrule
    rw [Definition.appendRule, hvalues, List.mem_append, List.mem_singleton] at hrule
    rcases hrule with hrule | rfl
    · exact hd.rules_declared rule' hrule
    · exact ⟨hhead, hbody⟩

theorem WellFormed.addRule {head : NonterminalId} {body : List Symbol} {id : RuleId}
    (hd : d.WellFormed) (hhead : d.declaresSymbol (.nonterminal head) = true)
    (hbody : ∀ symbol ∈ body, d.declaresSymbol symbol = true)
    (h : d.addRule head body = .ok (id, d')) : d'.WellFormed := by
  obtain ⟨hnew, -, -, rfl⟩ := addRule_eq_ok h
  exact hd.appendRule hnew hhead hbody

/-! ## The steps of the reader -/

theorem IsPlain.empty : Definition.empty.IsPlain where
  names_nodup := by decide
  terminals_below := by decide
  nonterminals_below := by decide
  rules_below := by decide
  rules_nodup := by decide
  rules_declared := by decide
  start_declared := by simp [Definition.empty]
  endOfInput_named := by decide
  nextTerminal_pos := by decide
  nextNonterminal_pos := by decide
  nextRule_pos := by decide
  nonterminals_pos := by decide
  rules_pos := by decide
  endOfInput_unused := by decide

namespace IsPlain

theorem addTerminal {name : String} (hd : d.IsPlain) (hname : name ∉ d.names) :
    (d.addTerminal name).2.IsPlain := by
  refine { hd with
    toWellFormed := hd.toWellFormed.addTerminal hname
    endOfInput_named := ?_
    nextTerminal_pos := Nat.succ_pos _ }
  have hne : endOfInput ≠ d.nextTerminal := fun h => Nat.ne_of_lt hd.nextTerminal_pos h
  simp [Definition.addTerminal, hne, hd.endOfInput_named]

theorem addNonterminal {name : String} (hd : d.IsPlain) (hname : name ∉ d.names) :
    (d.addNonterminal name).2.IsPlain := by
  have hfresh := hd.toWellFormed.nextNonterminal_not_mem
  refine { hd with
    toWellFormed := hd.toWellFormed.addNonterminal hname
    start_declared := ?_
    nextNonterminal_pos := Nat.succ_pos _
    nonterminals_pos := ?_ }
  · intro m hm
    rw [Definition.addNonterminal, OrderedMap.keys_insert_of_not_mem hfresh]
    exact List.mem_append_left _ (hd.start_declared m hm)
  · intro m hm
    rw [Definition.addNonterminal, OrderedMap.keys_insert_of_not_mem hfresh, List.mem_append,
      List.mem_singleton] at hm
    rcases hm with hm | rfl
    · exact hd.nonterminals_pos m hm
    · exact Nat.ne_of_gt hd.nextNonterminal_pos

theorem appendRule {rule : Rule} (hd : d.IsPlain) (hnew : rule ∉ d.rules.values)
    (hhead : d.declaresSymbol (.nonterminal rule.head) = true)
    (hbody : ∀ symbol ∈ rule.body, d.declaresSymbol symbol = true)
    (hend : .terminal endOfInput ∉ rule.body) : (d.appendRule rule).2.IsPlain := by
  have hfresh := hd.toWellFormed.nextRule_not_mem
  refine { hd with
    toWellFormed := hd.toWellFormed.appendRule hnew hhead hbody
    nextRule_pos := Nat.succ_pos _
    rules_pos := ?_
    endOfInput_unused := ?_ }
  · intro i hi
    rw [Definition.appendRule, OrderedMap.keys_insert_of_not_mem hfresh, List.mem_append,
      List.mem_singleton] at hi
    rcases hi with hi | rfl
    · exact hd.rules_pos i hi
    · exact Nat.ne_of_gt hd.nextRule_pos
  · intro rule' hrule
    rw [Definition.appendRule, OrderedMap.values_insert_of_not_mem hfresh, List.mem_append,
      List.mem_singleton] at hrule
    rcases hrule with hrule | rfl
    · exact hd.endOfInput_unused rule' hrule
    · exact hend

theorem declareTerminal {name : String} {t : TerminalId} (hd : d.IsPlain)
    (h : d.declareTerminal name = .ok (t, d')) : d'.IsPlain := by
  obtain ⟨hname, -, -, rfl⟩ := declareTerminal_eq_ok h
  exact hd.addTerminal hname

theorem declareNonterminal {name : String} {n : NonterminalId} (hd : d.IsPlain)
    (h : d.declareNonterminal name = .ok (n, d')) : d'.IsPlain := by
  obtain ⟨hname, -, -, rfl⟩ := declareNonterminal_eq_ok h
  exact hd.addNonterminal hname

theorem addRule {head : NonterminalId} {body : List Symbol} {id : RuleId} (hd : d.IsPlain)
    (hhead : d.declaresSymbol (.nonterminal head) = true)
    (hbody : ∀ symbol ∈ body, d.declaresSymbol symbol = true)
    (hend : .terminal endOfInput ∉ body)
    (h : d.addRule head body = .ok (id, d')) : d'.IsPlain := by
  obtain ⟨hnew, -, -, rfl⟩ := addRule_eq_ok h
  exact hd.appendRule hnew hhead hbody hend

end IsPlain

theorem symbolNamed?_eq_some {name : String} {symbol : Symbol}
    (h : d.symbolNamed? name = some symbol) :
    d.declaresSymbol symbol = true ∧ symbol ≠ .terminal endOfInput := by
  rw [symbolNamed?, GrammarAnalysis.symbolNamed?] at h
  split at h
  · next entry hentry =>
    rw [Option.some.injEq] at h
    subst h
    refine ⟨declaresSymbol_nonterminal.mpr ?_, by simp⟩
    exact List.mem_map_of_mem (List.mem_of_find?_eq_some hentry)
  · obtain ⟨t, ht, rfl⟩ := Option.map_eq_some_iff.mp h
    rw [terminalNamed?, Option.map_eq_some_iff] at ht
    obtain ⟨entry, hentry, rfl⟩ := ht
    have hne := List.find?_some hentry
    refine ⟨declaresSymbol_terminal.mpr ?_, ?_⟩
    · exact List.mem_map_of_mem (List.mem_of_find?_eq_some hentry)
    · simp only [Bool.and_eq_true, decide_eq_true_eq] at hne
      simpa using hne.1

/-- What reading a name keeps and adds: the symbol is declared, and it is not
the end of input. -/
theorem IsPlain.resolve {name : String} {symbol : Symbol} (hd : d.IsPlain)
    (h : d.resolve name = .ok (symbol, d')) :
    d'.IsPlain ∧ d.Extends d' ∧ d'.declaresSymbol symbol = true ∧
      symbol ≠ .terminal endOfInput := by
  rw [Definition.resolve] at h
  split at h
  · next found hfound =>
    simp only [Except.ok.injEq, Prod.mk.injEq] at h
    obtain ⟨rfl, rfl⟩ := h
    exact ⟨hd, .refl d, symbolNamed?_eq_some hfound⟩
  · obtain ⟨⟨t, d₁⟩, hdecl, h⟩ := exists_of_bind_eq_ok h
    simp only [pure, Except.pure, Except.ok.injEq, Prod.mk.injEq] at h
    obtain ⟨rfl, rfl⟩ := h
    refine ⟨hd.declareTerminal hdecl, extends_declareTerminal hd.toWellFormed hdecl, ?_, ?_⟩
    · have hfresh := hd.toWellFormed.nextTerminal_not_mem
      obtain ⟨-, -, rfl, rfl⟩ := declareTerminal_eq_ok hdecl
      rw [declaresSymbol_terminal, OrderedMap.keys_insert_of_not_mem hfresh]
      simp
    · obtain ⟨-, -, rfl, -⟩ := declareTerminal_eq_ok hdecl
      rw [ne_eq, Symbol.terminal.injEq]
      exact Nat.ne_of_gt hd.nextTerminal_pos

theorem IsPlain.resolveAll {names : List String} {symbols : List Symbol} (hd : d.IsPlain)
    (h : d.resolveAll names = .ok (symbols, d')) :
    d'.IsPlain ∧ d.Extends d' ∧ (∀ symbol ∈ symbols, d'.declaresSymbol symbol = true) ∧
      .terminal endOfInput ∉ symbols := by
  induction names generalizing d symbols with
  | nil =>
      simp only [Definition.resolveAll, Except.ok.injEq, Prod.mk.injEq] at h
      obtain ⟨rfl, rfl⟩ := h
      exact ⟨hd, .refl d, by simp, by simp⟩
  | cons name names ih =>
      rw [Definition.resolveAll] at h
      obtain ⟨⟨symbol, d₁⟩, hname, h⟩ := exists_of_bind_eq_ok h
      obtain ⟨⟨rest, d₂⟩, hrest, h⟩ := exists_of_bind_eq_ok h
      simp only [pure, Except.pure, Except.ok.injEq, Prod.mk.injEq] at h
      obtain ⟨rfl, rfl⟩ := h
      obtain ⟨hd₁, hextends₁, hsymbol, hne⟩ := hd.resolve hname
      obtain ⟨hd₂, hextends₂, hsymbols, hnot⟩ := ih hd₁ hrest
      refine ⟨hd₂, hextends₁.trans hextends₂, ?_, ?_⟩
      · intro s hs
        rcases List.mem_cons.mp hs with rfl | hs
        · exact hextends₂ _ hsymbol
        · exact hsymbols s hs
      · rw [List.mem_cons, not_or]
        exact ⟨fun h => hne h.symm, hnot⟩

theorem IsPlain.addNamedRule {head : String} {body : List String} (hd : d.IsPlain)
    (h : d.addNamedRule head body = .ok d') : d'.IsPlain := by
  rw [Definition.addNamedRule] at h
  split at h
  · next n hhead =>
    obtain ⟨⟨symbols, d₁⟩, hbody, h⟩ := exists_of_bind_eq_ok h
    obtain ⟨⟨id, d₂⟩, hrule, h⟩ := exists_of_bind_eq_ok h
    simp only [pure, Except.pure, Except.ok.injEq] at h
    subst h
    obtain ⟨hd₁, hextends, hsymbols, hend⟩ := hd.resolveAll hbody
    have hn := hextends _ (symbolNamed?_eq_some hhead).1
    exact hd₁.addRule hn hsymbols hend hrule
  · simp only [Except.ok.injEq] at h
    exact h ▸ hd

theorem IsPlain.declareHeads {heads : List String} (hd : d.IsPlain)
    (h : d.declareHeads heads = .ok d') : d'.IsPlain := by
  induction heads generalizing d with
  | nil =>
      simp only [Definition.declareHeads, Except.ok.injEq] at h
      exact h ▸ hd
  | cons head heads ih =>
      rw [Definition.declareHeads] at h
      split at h
      · exact ih hd h
      · obtain ⟨⟨n, d₁⟩, hdecl, h⟩ := exists_of_bind_eq_ok h
        exact ih (hd.declareNonterminal hdecl) h

/-- What adding one rule by names keeps is kept when several are added. -/
theorem foldlM_induction {P : Definition → Prop} {rules : List (String × List String)}
    (hstep : ∀ head body d d', P d → d.addNamedRule head body = .ok d' → P d') (hd : P d)
    (h : rules.foldlM (fun d rule => d.addNamedRule rule.1 rule.2) d = .ok d') : P d' := by
  induction rules generalizing d with
  | nil =>
      simp only [List.foldlM_nil, pure, Except.pure, Except.ok.injEq] at h
      exact h ▸ hd
  | cons rule rules ih =>
      rw [List.foldlM_cons] at h
      obtain ⟨d₁, hrule, h⟩ := exists_of_bind_eq_ok h
      exact ih (hstep rule.1 rule.2 d d₁ hd hrule) h

theorem IsPlain.foldlM {rules : List (String × List String)} (hd : d.IsPlain)
    (h : rules.foldlM (fun d rule => d.addNamedRule rule.1 rule.2) d = .ok d') : d'.IsPlain :=
  foldlM_induction (fun _ _ _ _ hplain hrule => hplain.addNamedRule hrule) hd h

theorem IsPlain.addProductions {productions : List Production} (hd : d.IsPlain)
    (h : d.addProductions productions = .ok d') : d'.IsPlain :=
  hd.foldlM h

theorem IsPlain.toGrammar {g : Grammar} (hd : d.IsPlain) (h : d.toGrammar = .ok g) : g.IsPlain := by
  rw [Definition.toGrammar] at h
  split at h
  · next start hs =>
    have hmem : start ∈ d.nonterminals.keys := by
      rcases Option.or_eq_some_iff.mp hs with hs | ⟨-, hs⟩
      · exact hd.start_declared start hs
      · exact List.mem_of_head? hs
    simp only [Except.ok.injEq] at h
    subst h
    exact {
      names_nodup := hd.names_nodup
      endOfInput_named := hd.endOfInput_named
      rules_nodup := hd.rules_nodup
      start_declared := hmem
      heads_declared := fun rule hrule =>
        declaresSymbol_nonterminal.mp (hd.rules_declared rule hrule).1
      bodies_declared := by
        intro rule hrule symbol hs
        have := (hd.rules_declared rule hrule).2 symbol hs
        cases symbol with
        | terminal t => exact declaresSymbol_terminal.mp this
        | nonterminal n => exact declaresSymbol_nonterminal.mp this
      nonterminals_pos := hd.nonterminals_pos
      rules_pos := hd.rules_pos
      endOfInput_unused := hd.endOfInput_unused }
  · contradiction

end Definition

/-- A grammar that is read from text is plain. -/
theorem Grammar.isPlain_of_ofText {text : String} {g : Grammar} (h : ofText text = .ok g) :
    g.IsPlain := by
  obtain ⟨productions, -, h⟩ := exists_of_bind_eq_ok h
  rw [ofProductions] at h
  split at h
  · contradiction
  · obtain ⟨d₁, hheads, h⟩ := exists_of_bind_eq_ok h
    obtain ⟨d₂, hrules, h⟩ := exists_of_bind_eq_ok h
    exact ((Definition.IsPlain.empty.declareHeads hheads).addProductions hrules).toGrammar h

/-- What is computed from a text without an error is computed from its grammar. -/
theorem Grammar.exists_of_ofText {text : String} {β : Type} {f : Grammar → β} {b : β}
    (h : (ofText text).toOption.map f = some b) : ∃ g, ofText text = .ok g ∧ f g = b :=
  exists_of_map_toOption h

end GrammarAnalysis

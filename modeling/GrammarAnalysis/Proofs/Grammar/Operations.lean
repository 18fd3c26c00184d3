import GrammarAnalysis.Proofs.Grammar.Counters
import GrammarAnalysis.Proofs.Grammar.Rebuild

/-!
# The operations of a definition

Symbols and rules are added to a definition, and symbols are dropped from it, by
seven operations in any order.  As long as rules and the start symbol mention
symbols that are declared at that moment, every operation keeps the definition
well formed and within the numbers there are.  An operation is refused if the name
or the rule is there already, or if it would have to hand out the last number.
-/

namespace GrammarAnalysis

/-- What is computed from a result without failing comes from a result. -/
theorem exists_of_map_eq_ok {ε α β : Type} {result : Except ε α} {f : α → β} {b : β}
    (h : result.map f = .ok b) : ∃ a, result = .ok a ∧ f a = b := by
  cases result with
  | error e => contradiction
  | ok a => exact ⟨a, rfl, Except.ok.inj h⟩

/-- Reading off all values succeeds if it succeeds for each of them. -/
theorem exists_mapM {α β : Type} {f : α → Option β} {as : List α}
    (h : ∀ a ∈ as, ∃ b, f a = some b) : ∃ bs, as.mapM f = some bs := by
  induction as with
  | nil => exact ⟨[], rfl⟩
  | cons a as ih =>
      obtain ⟨⟨b, hb⟩, has⟩ := List.forall_mem_cons.mp h
      obtain ⟨bs, hbs⟩ := ih has
      exact ⟨b :: bs, by simp [List.mapM_cons, hb, hbs]⟩

namespace Definition

variable {d d' : Definition} {rule : Rule} {head : NonterminalId} {body : List Symbol}

/-- What can be done to a definition. -/
inductive Operation where
  | declareTerminal (name : String)
  | declareNonterminal (name : String)
  | freshNonterminal (base : String)
  | addRule (head : NonterminalId) (body : List Symbol)
  | ensureRule (head : NonterminalId) (body : List Symbol)
  | retain (keep : Symbol → Bool)
  | setStart (n : NonterminalId)

namespace Operation

/-- The definition after the operation, with the number of the symbol or the rule
that the operation is about. -/
def apply (d : Definition) : Operation → Except GrammarError (Option Nat × Definition)
  | declareTerminal name => (d.declareTerminal name).map (Prod.map some id)
  | declareNonterminal name => (d.declareNonterminal name).map (Prod.map some id)
  | freshNonterminal base => (d.declareFresh base).map (Prod.map some id)
  | addRule head body => (d.addRule head body).map (Prod.map some id)
  | ensureRule head body => (d.includeRule head body).map (Prod.map some id)
  | retain keep => .ok (none, d.retain keep)
  | setStart n => .ok (none, d.setStart n)

/-- The name under which the operation declares a symbol, unless it makes the name up. -/
def declared? : Operation → Option String
  | declareTerminal name | declareNonterminal name => some name
  | _ => none

/-- The number that the operation has to hand out, if it is not about a name or a rule that is
there already. -/
def drawn? (d : Definition) : Operation → Option Nat
  | declareTerminal name => if d.declares name then none else some d.nextTerminal
  | declareNonterminal name => if d.declares name then none else some d.nextNonterminal
  | freshNonterminal _ => some d.nextNonterminal
  | addRule head body | ensureRule head body =>
    if (d.ruleId? ⟨head, body⟩).isSome then none else some d.nextRule
  | retain _ | setStart _ => none

/-- The symbols that have to be declared before the operation. -/
def mentioned : Operation → List Symbol
  | addRule head body => .nonterminal head :: body
  | ensureRule head body => .nonterminal head :: body
  | setStart n => [.nonterminal n]
  | _ => []

/-- Whether the operation mentions declared symbols only. -/
def Fits (d : Definition) (op : Operation) : Prop :=
  ∀ symbol ∈ op.mentioned, d.declaresSymbol symbol = true

instance (d : Definition) (op : Operation) : Decidable (op.Fits d) :=
  inferInstanceAs (Decidable (∀ symbol ∈ op.mentioned, d.declaresSymbol symbol = true))

end Operation

/-- The definition after an operation.  A refused operation changes nothing. -/
def after (d : Definition) (op : Operation) : Definition :=
  match op.apply d with
  | .ok (_, d') => d'
  | .error _ => d

/-- The definition after several operations. -/
def afterAll (d : Definition) (ops : List Operation) : Definition := ops.foldl after d

/-- Whether each operation mentions symbols only that are declared when its turn comes. -/
def FitsAll (d : Definition) : List Operation → Prop
  | [] => True
  | op :: ops => op.Fits d ∧ (d.after op).FitsAll ops

/-- The definitions that operations start from: the empty one, and those with the
symbols of a well-formed grammar whose numbers can be kept. -/
inductive IsInitial : Definition → Prop
  | empty : IsInitial .empty
  | toDefinition {g : Grammar} (h : g.WellFormed) (hfits : g.toDefinition.fits = true) :
      IsInitial g.toDefinition

/-! ## Known rules -/

/-- A rule that is known is found under its number. -/
theorem exists_mem_of_ruleId? {id : RuleId} (h : d.ruleId? rule = some id) :
    (id, rule) ∈ d.rules.entries := by
  rw [ruleId?, Option.map_eq_some_iff] at h
  obtain ⟨entry, hentry, rfl⟩ := h
  have hrule : entry.2 = rule := by simpa using List.find?_some hentry
  rw [← hrule]
  exact List.mem_of_find?_eq_some hentry

theorem exists_name? {symbol : Symbol} (h : d.declaresSymbol symbol = true) :
    ∃ name, d.name? symbol = some name := by
  cases symbol with
  | terminal t => exact OrderedMap.mem_keys_iff.mp (declaresSymbol_terminal.mp h)
  | nonterminal n => exact OrderedMap.mem_keys_iff.mp (declaresSymbol_nonterminal.mp h)

/-- A rule over declared symbols can be quoted. -/
theorem exists_quote? (hhead : d.declaresSymbol (.nonterminal rule.head) = true)
    (hbody : ∀ symbol ∈ rule.body, d.declaresSymbol symbol = true) :
    ∃ text, d.quote? rule = some text := by
  obtain ⟨head, hname⟩ := exists_name? hhead
  obtain ⟨body, hnames⟩ := exists_mapM fun symbol hs => exists_name? (hbody symbol hs)
  have hfirst : d.nonterminals.get? rule.head = some head := hname
  exact ⟨_, by rw [quote?, hfirst, hnames]; rfl⟩

/-! ## What operations keep -/

theorem declareFresh_eq_ok {base : String} {n : NonterminalId}
    (h : d.declareFresh base = .ok (n, d')) :
    d.nextNonterminal < lastNumber ∧ d.freshNonterminal base = (n, d') :=
  drawing_eq_ok_iff.mp h

/-- A rule that is included is known already, or gets the next number. -/
theorem includeRule_eq_ok {id : RuleId} (h : d.includeRule head body = .ok (id, d')) :
    d.ensureRule head body = (id, d') ∧
      (d' = d ∨ d.nextRule < lastNumber ∧ d.addRule head body = .ok (id, d')) := by
  simp only [includeRule] at h
  split at h
  · next known hknown =>
    obtain ⟨rfl, rfl⟩ := Prod.mk.inj (Except.ok.inj h)
    exact ⟨by simp only [ensureRule, hknown], .inl rfl⟩
  · next hnew =>
    obtain ⟨hleft, hmade⟩ := drawing_eq_ok_iff.mp h
    exact ⟨by simp only [ensureRule, hnew, hmade], .inr ⟨hleft, by simp only [addRule, hnew, h]⟩⟩

/-- A definition that has never drawn the last number does not draw it by a step that
succeeds. -/
theorem fits_of_apply (hd : d.fits = true) {op : Operation} {answer : Option Nat}
    (h : op.apply d = .ok (answer, d')) : d'.fits = true := by
  obtain ⟨hterminal, hnonterminal, hrule⟩ := fits_iff.mp hd
  cases op with
  | declareTerminal name =>
      obtain ⟨⟨t, d''⟩, hdeclared, heq⟩ := exists_of_map_eq_ok h
      obtain rfl : d'' = d' := congrArg Prod.snd heq
      obtain ⟨-, hleft, -, rfl⟩ := declareTerminal_eq_ok hdeclared
      exact fits_iff.mpr ⟨hleft, hnonterminal, hrule⟩
  | declareNonterminal name =>
      obtain ⟨⟨n, d''⟩, hdeclared, heq⟩ := exists_of_map_eq_ok h
      obtain rfl : d'' = d' := congrArg Prod.snd heq
      obtain ⟨-, hleft, -, rfl⟩ := declareNonterminal_eq_ok hdeclared
      exact fits_iff.mpr ⟨hterminal, hleft, hrule⟩
  | freshNonterminal base =>
      obtain ⟨⟨n, d''⟩, hdeclared, heq⟩ := exists_of_map_eq_ok h
      obtain rfl : d'' = d' := congrArg Prod.snd heq
      obtain ⟨hleft, hfresh⟩ := declareFresh_eq_ok hdeclared
      obtain rfl := congrArg Prod.snd hfresh
      exact fits_iff.mpr ⟨hterminal, hleft, hrule⟩
  | addRule head body =>
      obtain ⟨⟨id, d''⟩, hadded, heq⟩ := exists_of_map_eq_ok h
      obtain rfl : d'' = d' := congrArg Prod.snd heq
      obtain ⟨-, hleft, -, rfl⟩ := addRule_eq_ok hadded
      exact fits_iff.mpr ⟨hterminal, hnonterminal, hleft⟩
  | ensureRule head body =>
      obtain ⟨⟨id, d''⟩, hincluded, heq⟩ := exists_of_map_eq_ok h
      obtain rfl : d'' = d' := congrArg Prod.snd heq
      obtain ⟨-, rfl | ⟨-, hadded⟩⟩ := includeRule_eq_ok hincluded
      · exact hd
      · obtain ⟨-, hleft, -, rfl⟩ := addRule_eq_ok hadded
        exact fits_iff.mpr ⟨hterminal, hnonterminal, hleft⟩
  | retain keep =>
      obtain rfl := congrArg Prod.snd (Except.ok.inj h)
      exact hd
  | setStart n =>
      obtain rfl := congrArg Prod.snd (Except.ok.inj h)
      exact hd

namespace WellFormed

theorem freshNonterminal (hd : d.WellFormed) (base : String) :
    (d.freshNonterminal base).2.WellFormed :=
  hd.addNonterminal (freshName_not_mem d.names base)

theorem setStart (hd : d.WellFormed) (n : NonterminalId) : (d.setStart n).WellFormed :=
  { hd with }

/-- An operation that succeeds keeps the definition well formed. -/
theorem apply (hd : d.WellFormed) {op : Operation} (hop : op.Fits d) {answer : Option Nat}
    (h : op.apply d = .ok (answer, d')) : d'.WellFormed := by
  cases op with
  | declareTerminal name =>
      obtain ⟨⟨t, d''⟩, hdeclared, heq⟩ := exists_of_map_eq_ok h
      obtain rfl : d'' = d' := congrArg Prod.snd heq
      exact hd.declareTerminal hdeclared
  | declareNonterminal name =>
      obtain ⟨⟨n, d''⟩, hdeclared, heq⟩ := exists_of_map_eq_ok h
      obtain rfl : d'' = d' := congrArg Prod.snd heq
      exact hd.declareNonterminal hdeclared
  | freshNonterminal base =>
      obtain ⟨⟨n, d''⟩, hdeclared, heq⟩ := exists_of_map_eq_ok h
      obtain rfl : d'' = d' := congrArg Prod.snd heq
      obtain rfl := congrArg Prod.snd (declareFresh_eq_ok hdeclared).2
      exact hd.freshNonterminal base
  | addRule head body =>
      obtain ⟨hhead, hbody⟩ := List.forall_mem_cons.mp hop
      obtain ⟨⟨id, d''⟩, hadded, heq⟩ := exists_of_map_eq_ok h
      obtain rfl : d'' = d' := congrArg Prod.snd heq
      exact hd.addRule hhead hbody hadded
  | ensureRule head body =>
      obtain ⟨hhead, hbody⟩ := List.forall_mem_cons.mp hop
      obtain ⟨⟨id, d''⟩, hincluded, heq⟩ := exists_of_map_eq_ok h
      obtain rfl : d'' = d' := congrArg Prod.snd heq
      obtain ⟨-, rfl | ⟨-, hadded⟩⟩ := includeRule_eq_ok hincluded
      · exact hd
      · exact hd.addRule hhead hbody hadded
  | retain keep =>
      obtain rfl := congrArg Prod.snd (Except.ok.inj h)
      exact hd.retain keep
  | setStart n =>
      obtain rfl := congrArg Prod.snd (Except.ok.inj h)
      exact hd.setStart n

end WellFormed

/-! ## Refusals -/

/-- A definition that has enough numbers fails to draw one only if it is the last one. -/
theorem drawing_eq_error_iff {α : Type} {number : Nat} {made : α} {e : GrammarError}
    (h : number ≤ lastNumber) :
    drawing number made = .error e ↔ number = lastNumber ∧ e = .numbersExhausted := by
  rw [drawing]
  split
  · next hleft => simp [hleft.ne]
  · next hleft => simp [Nat.le_antisymm h (Nat.not_lt.mp hleft), eq_comm]

theorem map_eq_error_iff {ε α β : Type} {result : Except ε α} {f : α → β} {e : ε} :
    result.map f = .error e ↔ result = .error e := by
  cases result <;> simp [Except.map]

theorem declares_iff {name : String} : d.declares name = true ↔ name ∈ d.names := by
  simp [declares]

/-- A known rule of a well-formed definition is refused by its quotation. -/
theorem exists_quote?_of_ruleId? (hd : d.WellFormed) {id : RuleId}
    (h : d.ruleId? rule = some id) :
    rule ∈ d.rules.values ∧ ∃ text, d.quote? rule = some text := by
  have hrule : rule ∈ d.rules.values := List.mem_map.mpr ⟨_, exists_mem_of_ruleId? h, rfl⟩
  obtain ⟨hhead, hbody⟩ := hd.rules_declared _ hrule
  exact ⟨hrule, exists_quote? hhead hbody⟩

/-- An operation is refused exactly if it declares a name that is there already, adds a rule
that is there already, or has to hand out the last number. -/
theorem apply_eq_error_iff (hd : d.WellFormed) (hfits : d.fits = true) {op : Operation}
    {e : GrammarError} :
    op.apply d = .error e ↔
      (∃ name ∈ d.names, op.declared? = some name ∧ e = .duplicateSymbol name) ∨
      (∃ rule ∈ d.rules.values, op = .addRule rule.head rule.body ∧
        ∃ text, d.quote? rule = some text ∧ e = .duplicateRule text) ∨
      op.drawn? d = some lastNumber ∧ e = .numbersExhausted := by
  obtain ⟨hterminal, hnonterminal, hrule⟩ := fits_iff.mp hfits
  cases op with
  | declareTerminal name =>
      rw [Operation.apply, map_eq_error_iff, Definition.declareTerminal]
      split
      · next hname =>
        simp [Operation.declared?, Operation.drawn?, hname, declares_iff.mp hname, eq_comm]
      · next hname =>
        rw [drawing_eq_error_iff hterminal]
        simp [Operation.declared?, Operation.drawn?, hname, mt declares_iff.mpr hname]
  | declareNonterminal name =>
      rw [Operation.apply, map_eq_error_iff, Definition.declareNonterminal]
      split
      · next hname =>
        simp [Operation.declared?, Operation.drawn?, hname, declares_iff.mp hname, eq_comm]
      · next hname =>
        rw [drawing_eq_error_iff hnonterminal]
        simp [Operation.declared?, Operation.drawn?, hname, mt declares_iff.mpr hname]
  | freshNonterminal base =>
      rw [Operation.apply, map_eq_error_iff, declareFresh, drawing_eq_error_iff hnonterminal]
      simp [Operation.declared?, Operation.drawn?]
  | addRule head body =>
      have hsame : ∀ rule : Rule, Operation.addRule head body = .addRule rule.head rule.body ↔
          rule = ⟨head, body⟩ := fun rule => by
        rw [Operation.addRule.injEq, Rule.mk.injEq]
        exact and_congr eq_comm eq_comm
      rw [Operation.apply, map_eq_error_iff]
      simp only [Definition.addRule, hsame, and_left_comm (a := _ ∈ d.rules.values),
        exists_eq_left]
      cases hknown : d.ruleId? ⟨head, body⟩ with
      | none =>
          rw [drawing_eq_error_iff hrule]
          simp [Operation.declared?, Operation.drawn?, hknown, ruleId?_eq_none_iff.mp hknown]
      | some id =>
          obtain ⟨hmem, text, htext⟩ := exists_quote?_of_ruleId? hd hknown
          simp [Operation.declared?, Operation.drawn?, hknown, htext, hmem, eq_comm]
  | ensureRule head body =>
      rw [Operation.apply, map_eq_error_iff]
      simp only [Definition.includeRule]
      cases hknown : d.ruleId? ⟨head, body⟩ with
      | none =>
          simp only
          rw [drawing_eq_error_iff hrule]
          simp [Operation.declared?, Operation.drawn?, hknown]
      | some id => simp [Operation.declared?, Operation.drawn?, hknown]
  | retain keep => simp [Operation.apply, Operation.declared?, Operation.drawn?]
  | setStart n => simp [Operation.apply, Operation.declared?, Operation.drawn?]

theorem WellFormed.after (hd : d.WellFormed) {op : Operation} (hop : op.Fits d) :
    (d.after op).WellFormed := by
  rw [Definition.after]
  split
  · next hok => exact hd.apply hop hok
  · exact hd

theorem WellFormed.afterAll (hd : d.WellFormed) {ops : List Operation} (hops : d.FitsAll ops) :
    (d.afterAll ops).WellFormed := by
  induction ops generalizing d with
  | nil => exact hd
  | cons op ops ih => exact ih (hd.after hops.1) hops.2

theorem fits_after (hd : d.fits = true) (op : Operation) : (d.after op).fits = true := by
  rw [Definition.after]
  split
  · next hok => exact fits_of_apply hd hok
  · exact hd

theorem fits_afterAll (hd : d.fits = true) (ops : List Operation) :
    (d.afterAll ops).fits = true := by
  induction ops generalizing d with
  | nil => exact hd
  | cons op ops ih => exact ih (fits_after hd op)

theorem IsInitial.wellFormed (h : d.IsInitial) : d.WellFormed := by
  cases h with
  | empty => exact IsPlain.empty.toWellFormed
  | toDefinition hg hfits => exact hg.toDefinition

theorem IsInitial.fits (h : d.IsInitial) : d.fits = true := by
  cases h with
  | empty => decide
  | toDefinition hg hfits => exact hfits

end Definition

end GrammarAnalysis

import GrammarAnalysis.Proofs.Grammar.Operations

/-!
# Building in place

A definition can also be built in place.  Every symbol and every rule is then
kept together with its number, each operation changes the builder piece by
piece, and what has been changed before a failure stays changed.  Building in
place does what the operations of a definition do, so an operation that fails
has changed nothing (`Builder.building_exact`).  Names that are dropped give no
number back, so numbers can run out while only few symbols are declared
(`Builder.exists_step_exhausted`).
-/

namespace GrammarAnalysis

open Definition (Operation)

/-! ## Numbered values -/

/-- A value with the number that it was given. -/
structure Numbered (β : Type) where
  id : Nat
  value : β

namespace OrderedMap

variable {κ β γ : Type}

/-- The map with every value changed by `f`, which is given the key, too. -/
def mapValues (f : κ → β → γ) (m : OrderedMap κ β) : OrderedMap κ γ :=
  ⟨m.entries.map fun entry => (entry.1, f entry.1 entry.2), by
    simpa [Function.comp_def] using m.nodup⟩

theorem keys_mapValues (f : κ → β → γ) (m : OrderedMap κ β) : (m.mapValues f).keys = m.keys := by
  simp [keys, mapValues, Function.comp_def]

theorem values_mapValues (f : κ → β → γ) (m : OrderedMap κ β) :
    (m.mapValues f).values = m.entries.map fun entry => f entry.1 entry.2 := by
  simp [values, mapValues, Function.comp_def]

/-- The map whose values carry their numbers. -/
def numbered (m : OrderedMap Nat β) : OrderedMap Nat (Numbered β) := m.mapValues Numbered.mk

/-- The map without the numbers of its values. -/
def plainValues (m : OrderedMap Nat (Numbered β)) : OrderedMap Nat β :=
  m.mapValues fun _ entry => entry.value

theorem plainValues_numbered (m : OrderedMap Nat β) : m.numbered.plainValues = m := by
  cases m
  simp [numbered, plainValues, mapValues, Function.comp_def]

theorem keys_numbered (m : OrderedMap Nat β) : m.numbered.keys = m.keys := keys_mapValues _ m

theorem map_place (f : κ → β → γ) [DecidableEq κ] (k : κ) (v : β) (entries : List (κ × β)) :
    (place k (fun _ => v) entries).map (fun entry => (entry.1, f entry.1 entry.2)) =
      place k (fun _ => f k v) (entries.map fun entry => (entry.1, f entry.1 entry.2)) := by
  induction entries with
  | nil => rfl
  | cons entry entries ih =>
      simp only [place, List.map_cons]
      split
      · next hk => rw [List.map_cons, hk]
      · rw [List.map_cons, ih]

theorem mapValues_insert (f : κ → β → γ) [DecidableEq κ] (m : OrderedMap κ β) (k : κ) (v : β) :
    (m.insert k v).mapValues f = (m.mapValues f).insert k (f k v) := by
  simp only [insert, upsert, mapValues, map_place]

theorem mapValues_filterKeys (f : κ → β → γ) (keep : κ → Bool) (m : OrderedMap κ β) :
    (m.filterKeys keep).mapValues f = (m.mapValues f).filterKeys keep := by
  simp only [filterKeys, mapValues, List.filter_map, Function.comp_def]

theorem numbered_filter (keep : Nat → β → Bool) (m : OrderedMap Nat β) :
    (m.filter keep).numbered = m.numbered.filter fun k entry => keep k entry.value := by
  simp only [filter, numbered, mapValues, List.filter_map, Function.comp_def]

theorem map_value_numbered (m : OrderedMap Nat β) :
    m.numbered.values.map Numbered.value = m.values := by
  rw [numbered, values_mapValues, values, List.map_map]
  rfl

/-- The numbered entries are those of the map. -/
theorem mem_numbered_iff {m : OrderedMap Nat β} {entry : Nat × Numbered β} :
    entry ∈ m.numbered.entries ↔ ∃ k v, m.get? k = some v ∧ (k, ⟨k, v⟩) = entry := by
  simp only [numbered, mapValues, List.mem_map, Prod.exists, get?_eq_some_iff]

theorem fst_eq_id_of_mem_numbered {m : OrderedMap Nat β} {entry : Nat × Numbered β}
    (h : entry ∈ m.numbered.entries) : entry.1 = entry.2.id := by
  obtain ⟨_, _, rfl⟩ := List.mem_map.mp h
  rfl

end OrderedMap

/-! ## The builder -/

/-- A definition whose symbols and rules carry their numbers. -/
structure Builder where
  terminals : OrderedMap TerminalId (Numbered String)
  nonterminals : OrderedMap NonterminalId (Numbered String)
  rules : OrderedMap RuleId (Numbered Rule)
  start : Option NonterminalId
  nextTerminal : Nat
  nextNonterminal : Nat
  nextRule : Nat

/-- A computation that changes a builder in place. -/
abbrev Building := ExceptT GrammarError (StateM Builder)

/-- The builder with the symbols and the rules of a definition. -/
def Definition.builder (d : Definition) : Builder where
  terminals := d.terminals.numbered
  nonterminals := d.nonterminals.numbered
  rules := d.rules.numbered
  start := d.start
  nextTerminal := d.nextTerminal
  nextNonterminal := d.nextNonterminal
  nextRule := d.nextRule

namespace Builder

/-- The definition that is built, which does not look at the numbers that are carried. -/
def definition (b : Builder) : Definition where
  terminals := b.terminals.plainValues
  nonterminals := b.nonterminals.plainValues
  rules := b.rules.plainValues
  start := b.start
  nextTerminal := b.nextTerminal
  nextNonterminal := b.nextNonterminal
  nextRule := b.nextRule

/-- The answer of a computation, and the builder that it leaves behind. -/
def outcome {α : Type} (x : Building α) (b : Builder) : Except GrammarError α × Builder :=
  x.run.run b

/-- The known rule that equals the given one. -/
def findRule? (b : Builder) (rule : Rule) : Option (Numbered Rule) :=
  b.rules.values.find? fun entry => entry.value = rule

/-- Hands out a number unless it is the last one: counts on, then stores what gets the number. -/
def draw (number : Nat) (count store : Builder → Builder) : Building Nat := do
  unless number < lastNumber do throw .numbersExhausted
  modify count
  modify store
  return number

/-- Draws the next number for a terminal, and adds the terminal. -/
def insertTerminal (name : String) : Building Nat := do
  let id := (← get).nextTerminal
  draw id (fun b => { b with nextTerminal := b.nextTerminal + 1 })
    fun b => { b with terminals := b.terminals.insert id ⟨id, name⟩ }

/-- Draws the next number for a nonterminal, and adds the nonterminal. -/
def insertNonterminal (name : String) : Building Nat := do
  let id := (← get).nextNonterminal
  draw id (fun b => { b with nextNonterminal := b.nextNonterminal + 1 })
    fun b => { b with nonterminals := b.nonterminals.insert id ⟨id, name⟩ }

/-- Draws the next number for a rule, and adds the rule. -/
def insertRule (rule : Rule) : Building Nat := do
  let id := (← get).nextRule
  draw id (fun b => { b with nextRule := b.nextRule + 1 })
    fun b => { b with rules := b.rules.insert id ⟨id, rule⟩ }

/-- Adds a rule that is not known. -/
def addRule (rule : Rule) : Building Nat := do
  match (← get).findRule? rule with
  | none => insertRule rule
  | some known =>
    match (← get).definition.quote? known.value with
    | some text => throw (.duplicateRule text)
    | none => throw .unnamedSymbol

/-- Adds a rule unless it is known. -/
def ensureRule (rule : Rule) : Building Nat := do
  match (← get).findRule? rule with
  | none => insertRule rule
  | some known => return known.id

/-- Drops symbols, then the rules that mention undeclared ones. -/
def retain (keep : Symbol → Bool) : Building Unit := do
  let start := (← get).start
  modify fun b => { b with
    terminals := b.terminals.filterKeys fun t => t = endOfInput || keep (.terminal t) }
  modify fun b => { b with
    nonterminals := b.nonterminals.filterKeys fun n => some n = start || keep (.nonterminal n) }
  modify fun b => { b with
    rules := b.rules.filter fun _ entry =>
      b.nonterminals.contains entry.value.head &&
        entry.value.body.all b.definition.declaresSymbol }

/-- Adds a terminal under a new name. -/
def declareTerminal (name : String) : Building Nat := do
  if (← get).definition.declares name then throw (.duplicateSymbol name)
  insertTerminal name

/-- Adds a nonterminal under a new name. -/
def declareNonterminal (name : String) : Building Nat := do
  if (← get).definition.declares name then throw (.duplicateSymbol name)
  insertNonterminal name

/-- Adds a nonterminal under a name that is made new. -/
def freshNonterminal (base : String) : Building Nat := do
  insertNonterminal (freshName (← get).definition.names base)

/-- Carries out an operation in place. -/
def perform : Operation → Building (Option Nat)
  | .declareTerminal name => some <$> declareTerminal name
  | .declareNonterminal name => some <$> declareNonterminal name
  | .freshNonterminal base => some <$> freshNonterminal base
  | .addRule head body => some <$> addRule ⟨head, body⟩
  | .ensureRule head body => some <$> ensureRule ⟨head, body⟩
  | .retain keep => do
    retain keep
    return none
  | .setStart n => do
    modify fun b => { b with start := some n }
    return none

/-- What an operation answers, and the builder that it leaves behind. -/
def step (b : Builder) (op : Operation) : Except GrammarError (Option Nat) × Builder :=
  outcome (perform op) b

/-- The builder after several operations, whether they fail or not. -/
def stepAll (b : Builder) (ops : List Operation) : Builder :=
  ops.foldl (fun b op => (b.step op).2) b

/-- Whether each operation mentions symbols only that are declared when its turn comes. -/
def FitsAll (b : Builder) : List Operation → Prop
  | [] => True
  | op :: ops => op.Fits b.definition ∧ (b.step op).2.FitsAll ops

instance decidableFitsAll (b : Builder) : (ops : List Operation) → Decidable (b.FitsAll ops)
  | [] => inferInstanceAs (Decidable True)
  | op :: ops =>
    have := decidableFitsAll (b.step op).2 ops
    inferInstanceAs (Decidable (op.Fits b.definition ∧ (b.step op).2.FitsAll ops))

/-! ## Computations in steps -/

section Steps

variable {α β : Type} {x : Building α} {f : α → Building β} {b b' : Builder}

theorem outcome_get_bind (f : Builder → Building α) (b : Builder) :
    outcome (get >>= f) b = outcome (f b) b :=
  rfl

theorem outcome_bind_of_ok {a : α} (h : outcome x b = (.ok a, b')) :
    outcome (x >>= f) b = outcome (f a) b' := by
  have hrun : StateT.run (ExceptT.run x) b = (.ok a, b') := h
  simp only [outcome, ExceptT.run_bind, StateT.run_bind, hrun]
  rfl

theorem outcome_bind_of_error {e : GrammarError} (h : outcome x b = (.error e, b')) :
    outcome (x >>= f) b = (.error e, b') := by
  have hrun : StateT.run (ExceptT.run x) b = (.error e, b') := h
  simp only [outcome, ExceptT.run_bind, StateT.run_bind, hrun]
  rfl

theorem outcome_map (f : α → β) (x : Building α) (b : Builder) :
    outcome (f <$> x) b = ((outcome x b).1.map f, (outcome x b).2) := by
  simp only [outcome, ExceptT.run_map, StateT.run_map]
  rfl

theorem outcome_throw_bind (e : GrammarError) (f : α → Building β) (b : Builder) :
    outcome (throw e >>= f) b = (.error e, b) :=
  rfl

theorem outcome_draw (number : Nat) (count store : Builder → Builder) (b : Builder) :
    outcome (draw number count store) b =
      if number < lastNumber then (.ok number, store (count b))
      else (.error .numbersExhausted, b) := by
  rw [draw]
  split <;> rfl

end Steps

end Builder

namespace Definition

variable {d : Definition}

theorem definition_builder (d : Definition) : d.builder.definition = d := by
  simp only [builder, Builder.definition, OrderedMap.plainValues_numbered]

/-- The answer of a step and the builder after it; after a failure the builder is the one
from before the step. -/
def inPlace {α : Type} (d : Definition) :
    Except GrammarError (α × Definition) → Except GrammarError α × Builder
  | .ok (a, d') => (.ok a, d'.builder)
  | .error e => (.error e, d.builder)

theorem findRule?_builder (d : Definition) (rule : Rule) :
    d.builder.findRule? rule = (d.ruleId? rule).map fun id => ⟨id, rule⟩ := by
  have hfind : d.builder.findRule? rule =
      (d.rules.entries.find? fun entry => entry.2 = rule).map
        fun entry => ⟨entry.1, entry.2⟩ := by
    simp only [Builder.findRule?, builder, OrderedMap.numbered, OrderedMap.values_mapValues,
      List.find?_map, Function.comp_def]
  rw [hfind, ruleId?, Option.map_map]
  cases hentry : d.rules.entries.find? fun entry => entry.2 = rule with
  | none => rfl
  | some entry =>
      have hrule : entry.2 = rule := by simpa using List.find?_some hentry
      simp [hrule]

/-- What is drawn in place is what the definition draws, if both store the same. -/
theorem outcome_draw_builder {number : Nat} {made : Nat × Definition}
    {count store : Builder → Builder} (hnumber : made.1 = number)
    (hmade : store (count d.builder) = made.2.builder) :
    Builder.outcome (Builder.draw number count store) d.builder =
      d.inPlace (drawing number made) := by
  rw [Builder.outcome_draw, drawing, hmade, ← hnumber]
  split <;> rfl

theorem outcome_insertTerminal (d : Definition) (name : String) :
    Builder.outcome (Builder.insertTerminal name) d.builder =
      d.inPlace (drawing d.nextTerminal (d.addTerminal name)) := by
  rw [Builder.insertTerminal, Builder.outcome_get_bind]
  refine outcome_draw_builder rfl ?_
  simp only [builder, addTerminal, OrderedMap.numbered, OrderedMap.mapValues_insert]

theorem outcome_insertNonterminal (d : Definition) (name : String) :
    Builder.outcome (Builder.insertNonterminal name) d.builder =
      d.inPlace (drawing d.nextNonterminal (d.addNonterminal name)) := by
  rw [Builder.insertNonterminal, Builder.outcome_get_bind]
  refine outcome_draw_builder rfl ?_
  simp only [builder, addNonterminal, OrderedMap.numbered, OrderedMap.mapValues_insert]

theorem outcome_insertRule (d : Definition) (rule : Rule) :
    Builder.outcome (Builder.insertRule rule) d.builder =
      d.inPlace (drawing d.nextRule (d.appendRule rule)) := by
  rw [Builder.insertRule, Builder.outcome_get_bind]
  refine outcome_draw_builder rfl ?_
  simp only [builder, appendRule, OrderedMap.numbered, OrderedMap.mapValues_insert]

theorem outcome_declareTerminal (d : Definition) (name : String) :
    Builder.outcome (Builder.declareTerminal name) d.builder =
      d.inPlace (d.declareTerminal name) := by
  rw [Builder.declareTerminal, Builder.outcome_get_bind, definition_builder,
    Definition.declareTerminal]
  split
  · exact Builder.outcome_throw_bind _ _ _
  · exact outcome_insertTerminal d name

theorem outcome_declareNonterminal (d : Definition) (name : String) :
    Builder.outcome (Builder.declareNonterminal name) d.builder =
      d.inPlace (d.declareNonterminal name) := by
  rw [Builder.declareNonterminal, Builder.outcome_get_bind, definition_builder,
    Definition.declareNonterminal]
  split
  · exact Builder.outcome_throw_bind _ _ _
  · exact outcome_insertNonterminal d name

theorem outcome_freshNonterminal (d : Definition) (base : String) :
    Builder.outcome (Builder.freshNonterminal base) d.builder =
      d.inPlace (d.declareFresh base) := by
  rw [Builder.freshNonterminal, Builder.outcome_get_bind, definition_builder]
  exact outcome_insertNonterminal d _

theorem outcome_addRule (d : Definition) (head : NonterminalId) (body : List Symbol) :
    Builder.outcome (Builder.addRule ⟨head, body⟩) d.builder =
      d.inPlace (d.addRule head body) := by
  rw [Builder.addRule, Builder.outcome_get_bind, findRule?_builder]
  simp only [Definition.addRule]
  cases d.ruleId? ⟨head, body⟩ with
  | none => exact outcome_insertRule d ⟨head, body⟩
  | some id =>
      simp only [Option.map_some, Builder.outcome_get_bind, definition_builder]
      cases d.quote? ⟨head, body⟩ <;> rfl

theorem outcome_ensureRule (d : Definition) (head : NonterminalId) (body : List Symbol) :
    Builder.outcome (Builder.ensureRule ⟨head, body⟩) d.builder =
      d.inPlace (d.includeRule head body) := by
  rw [Builder.ensureRule, Builder.outcome_get_bind, findRule?_builder]
  simp only [Definition.includeRule]
  cases d.ruleId? ⟨head, body⟩ with
  | none => exact outcome_insertRule d ⟨head, body⟩
  | some id => rfl

theorem outcome_retain (d : Definition) (keep : Symbol → Bool) :
    Builder.outcome (Builder.retain keep) d.builder = (.ok (), (d.retain keep).builder) := by
  let kept : Definition := { d with
    terminals := d.terminals.filterKeys fun t => t = endOfInput || keep (.terminal t)
    nonterminals := d.nonterminals.filterKeys fun n => some n = d.start || keep (.nonterminal n) }
  have hkept : kept.builder = { d.builder with
      terminals := d.builder.terminals.filterKeys fun t => t = endOfInput || keep (.terminal t)
      nonterminals := d.builder.nonterminals.filterKeys
        fun n => some n = d.start || keep (.nonterminal n) } := by
    simp only [kept, builder, OrderedMap.numbered, OrderedMap.mapValues_filterKeys]
  -- The rules are looked through when the symbols have been dropped.
  have hrules : (d.retain keep).builder = { kept.builder with
      rules := kept.builder.rules.filter fun _ entry =>
        kept.builder.nonterminals.contains entry.value.head &&
          entry.value.body.all kept.builder.definition.declaresSymbol } := by
    rw [definition_builder]
    simp only [kept, Definition.retain, builder, OrderedMap.numbered_filter,
      OrderedMap.contains, OrderedMap.keys_numbered]
  rw [hrules, hkept]
  rfl

theorem outcome_map_some {d : Definition} {x : Building Nat}
    {result : Except GrammarError (Nat × Definition)}
    (h : Builder.outcome x d.builder = d.inPlace result) :
    Builder.outcome (some <$> x) d.builder = d.inPlace (result.map (Prod.map some id)) := by
  rw [Builder.outcome_map, h]
  cases result <;> rfl

/-- Building in place does what the operation does to the definition. -/
theorem step_builder (d : Definition) (op : Operation) :
    d.builder.step op = d.inPlace (op.apply d) := by
  rw [Builder.step]
  cases op with
  | declareTerminal name => exact outcome_map_some (outcome_declareTerminal d name)
  | declareNonterminal name => exact outcome_map_some (outcome_declareNonterminal d name)
  | freshNonterminal base => exact outcome_map_some (outcome_freshNonterminal d base)
  | addRule head body => exact outcome_map_some (outcome_addRule d head body)
  | ensureRule head body => exact outcome_map_some (outcome_ensureRule d head body)
  | retain keep =>
      rw [Builder.perform, Builder.outcome_bind_of_ok (outcome_retain d keep)]
      rfl
  | setStart n => rfl

theorem builder_after (d : Definition) (op : Operation) :
    (d.builder.step op).2 = (d.after op).builder := by
  rw [step_builder, after]
  cases op.apply d <;> rfl

theorem builder_afterAll (d : Definition) (ops : List Operation) :
    d.builder.stepAll ops = (d.afterAll ops).builder := by
  induction ops generalizing d with
  | nil => rfl
  | cons op ops ih =>
      calc d.builder.stepAll (op :: ops)
          = (d.after op).builder.stepAll ops :=
            congrArg (Builder.stepAll · ops) (builder_after d op)
        _ = (d.afterAll (op :: ops)).builder := ih (d.after op)

theorem fitsAll_builder {d : Definition} {ops : List Operation} (h : d.builder.FitsAll ops) :
    d.FitsAll ops := by
  induction ops generalizing d with
  | nil => trivial
  | cons op ops ih =>
      obtain ⟨hop, hops⟩ := h
      rw [definition_builder] at hop
      rw [builder_after] at hops
      exact ⟨hop, ih hops⟩

end Definition

namespace Builder

/-- What every operation keeps: names apart, every number that is carried is the one
the value is stored under and lies below those drawn next, the last number not passed, no
rule repeated, and no undeclared symbol mentioned. -/
structure WellFormed (b : Builder) : Prop where
  names_nodup :
    (b.terminals.values.map Numbered.value ++ b.nonterminals.values.map Numbered.value).Nodup
  terminals_numbered : ∀ entry ∈ b.terminals.entries, entry.1 = entry.2.id
  nonterminals_numbered : ∀ entry ∈ b.nonterminals.entries, entry.1 = entry.2.id
  rules_numbered : ∀ entry ∈ b.rules.entries, entry.1 = entry.2.id
  terminals_below : ∀ t ∈ b.terminals.keys, t < b.nextTerminal
  nonterminals_below : ∀ n ∈ b.nonterminals.keys, n < b.nextNonterminal
  rules_below : ∀ id ∈ b.rules.keys, id < b.nextRule
  fits : b.definition.fits = true
  rules_nodup : (b.rules.values.map Numbered.value).Nodup
  rules_declared : ∀ rule ∈ b.rules.values.map Numbered.value,
    b.definition.declaresSymbol (.nonterminal rule.head) = true ∧
      ∀ symbol ∈ rule.body, b.definition.declaresSymbol symbol = true

theorem wellFormed_builder {d : Definition} (hd : d.WellFormed) (hfits : d.fits = true) :
    d.builder.WellFormed where
  names_nodup := by
    simpa only [Definition.builder, OrderedMap.map_value_numbered, Definition.names]
      using hd.names_nodup
  terminals_numbered _ h := OrderedMap.fst_eq_id_of_mem_numbered h
  nonterminals_numbered _ h := OrderedMap.fst_eq_id_of_mem_numbered h
  rules_numbered _ h := OrderedMap.fst_eq_id_of_mem_numbered h
  terminals_below t ht := hd.terminals_below t (by rwa [← OrderedMap.keys_numbered])
  nonterminals_below n hn := hd.nonterminals_below n (by rwa [← OrderedMap.keys_numbered])
  rules_below id hid := hd.rules_below id (by rwa [← OrderedMap.keys_numbered])
  fits := by rwa [Definition.definition_builder]
  rules_nodup := by
    simpa only [Definition.builder, OrderedMap.map_value_numbered] using hd.rules_nodup
  rules_declared rule hrule := by
    rw [Definition.definition_builder]
    exact hd.rules_declared rule (by rwa [← OrderedMap.map_value_numbered])

theorem FitsAll.of_isPrefix {b : Builder} {done ops : List Operation} (hops : b.FitsAll ops)
    (h : done <+: ops) : b.FitsAll done := by
  induction done generalizing b ops with
  | nil => trivial
  | cons op done ih =>
      obtain ⟨rest, rfl⟩ := h
      exact ⟨hops.1, ih hops.2 ⟨rest, rfl⟩⟩

/-- Operations that mention no symbols can be carried out at any time. -/
theorem fitsAll_of_mentioned {b : Builder} {ops : List Operation}
    (h : ∀ op ∈ ops, op.mentioned = []) : b.FitsAll ops := by
  induction ops generalizing b with
  | nil => trivial
  | cons op ops ih =>
      obtain ⟨hop, hops⟩ := List.forall_mem_cons.mp h
      refine ⟨?_, ih hops⟩
      rw [Operation.Fits, hop]
      exact fun symbol hs => absurd hs List.not_mem_nil

/-- Operations that mention declared symbols only are carried out in place, from the
empty definition or from the symbols of a well-formed grammar.  The builder then
has after each of them what the operations make of the definition, and is well
formed.  The operation that comes next fails exactly if its name or its rule is there
already or if it has to hand out the last number, and then leaves the builder as it
was, numbers to draw included. -/
theorem building_exact {d : Definition} (hd : d.IsInitial) {ops : List Operation}
    (hops : d.builder.FitsAll ops) {done : List Operation} (hdone : done <+: ops) :
    d.builder.stepAll done = (d.afterAll done).builder ∧
      (d.builder.stepAll done).WellFormed ∧
      ∀ op e,
        (((d.builder.stepAll done).step op).1 = .error e →
          ((d.builder.stepAll done).step op).2 = d.builder.stepAll done) ∧
        (((d.builder.stepAll done).step op).1 = .error e ↔
          (∃ name ∈ (d.afterAll done).names,
            op.declared? = some name ∧ e = .duplicateSymbol name) ∨
          (∃ rule ∈ (d.afterAll done).rules.values, op = .addRule rule.head rule.body ∧
            ∃ text, (d.afterAll done).quote? rule = some text ∧ e = .duplicateRule text) ∨
          op.drawn? (d.afterAll done) = some lastNumber ∧ e = .numbersExhausted) := by
  have hbuilt := hd.wellFormed.afterAll (Definition.fitsAll_builder (hops.of_isPrefix hdone))
  have hfits := Definition.fits_afterAll hd.fits done
  rw [Definition.builder_afterAll]
  refine ⟨rfl, wellFormed_builder hbuilt hfits, fun op e => ?_⟩
  rw [Definition.step_builder, ← Definition.apply_eq_error_iff hbuilt hfits]
  cases op.apply (d.afterAll done) with
  | ok result => exact ⟨fun h => (nomatch h), iff_of_false (nomatch ·) (nomatch ·)⟩
  | error e' => exact ⟨fun _ => rfl, by simp only [Definition.inPlace, Except.error.injEq]⟩

/-- A rule comes twice, a terminal is dropped and declared again under the next number, and
then its name is refused. -/
theorem building_exact_reused :
    let ops : List Operation := [.declareTerminal "a", .declareNonterminal "S",
      .addRule 1 [.terminal 1], .addRule 1 [.terminal 1], .setStart 1,
      .retain fun symbol => symbol ≠ .terminal 1, .declareTerminal "a"]
    let b := Definition.empty.builder.stepAll ops
    b.WellFormed ∧ b.definition.terminals.entries = [(0, "$"), (2, "a")] ∧
      b.definition.rules.entries = [] ∧ b.nextTerminal = 3 ∧ b.nextRule = 2 ∧
      (b.step (.declareNonterminal "a")).2 = b := by
  intro ops b
  have hops : Definition.empty.builder.FitsAll ops := by decide
  obtain ⟨-, hwell, hfails⟩ := building_exact .empty hops (List.prefix_refl ops)
  have hrefused : (b.step (.declareNonterminal "a")).1 = .error (.duplicateSymbol "a") := by rfl
  exact ⟨hwell, by decide, by decide, by decide, by decide, (hfails _ _).1 hrefused⟩

/-! ## Running out of numbers -/

/-- A nonterminal is declared and dropped again, several times over. -/
def declaredAndDropped (count : Nat) : List Operation :=
  (List.replicate count [.declareNonterminal "S", .retain fun _ => false]).flatten

theorem mentioned_of_mem_declaredAndDropped {count : Nat} {op : Operation}
    (h : op ∈ declaredAndDropped count) : op.mentioned = [] := by
  obtain ⟨pair, hpair, hop⟩ := List.mem_flatten.mp h
  rw [List.eq_of_mem_replicate hpair, List.mem_pair] at hop
  obtain rfl | rfl := hop <;> rfl

theorem afterAll_declaredAndDropped {count : Nat} (h : count < lastNumber) :
    Definition.empty.afterAll (declaredAndDropped count) =
      { Definition.empty with nextNonterminal := count + 1 } := by
  induction count with
  | zero => rfl
  | succ count ih =>
      let d : Definition := { Definition.empty with nextNonterminal := count + 1 }
      have hconcat : declaredAndDropped (count + 1) = declaredAndDropped count ++
          [.declareNonterminal "S", .retain fun _ => false] := by
        rw [declaredAndDropped, List.replicate_succ', List.flatten_concat]
        rfl
      have hadded : d.after (.declareNonterminal "S") = (d.addNonterminal "S").2 := by
        have hnew : ¬ d.declares "S" = true := (by decide : "S" ∉ ["$"]) ∘
          Definition.declares_iff.mp
        have happly : (Operation.declareNonterminal "S").apply d =
            .ok ((d.addNonterminal "S").map some id) := by
          rw [Operation.apply, Definition.declareNonterminal, if_neg hnew, drawing, if_pos h]
          rfl
        rw [Definition.after, happly]
        rfl
      calc Definition.empty.afterAll (declaredAndDropped (count + 1))
          = (Definition.empty.afterAll (declaredAndDropped count)).afterAll
              [.declareNonterminal "S", .retain fun _ => false] := by
            rw [hconcat]
            exact List.foldl_append
        _ = ((d.addNonterminal "S").2).after (.retain fun _ => false) := by
            rw [ih (Nat.lt_of_succ_lt h), ← hadded]
            rfl
        _ = { Definition.empty with nextNonterminal := count + 1 + 1 } := rfl

/-- Although only the end of input is declared in the end, no number is left for another
nonterminal: none of the refusals that are about what is there already applies. -/
theorem exists_step_exhausted :
    let ops := declaredAndDropped 65534
    let b := Definition.empty.builder.stepAll ops
    Definition.empty.builder.FitsAll ops ∧ b.definition.names = ["$"] ∧
      (b.step (.declareNonterminal "S")).1 = .error .numbersExhausted := by
  intro ops b
  let d : Definition := { Definition.empty with nextNonterminal := lastNumber }
  have hb : b = d.builder := by
    rw [show b = _ from Definition.builder_afterAll .empty ops,
      afterAll_declaredAndDropped (by decide)]
    rfl
  refine ⟨fitsAll_of_mentioned fun op hop => mentioned_of_mem_declaredAndDropped hop, ?_, ?_⟩
  · rw [hb, Definition.definition_builder]
    rfl
  · rw [hb, Definition.step_builder]
    rfl

end Builder

end GrammarAnalysis

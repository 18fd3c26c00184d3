import GrammarAnalysis.Grammar.Reader
import GrammarAnalysis.Proofs.Grammar.Building

/-!
# Grammars that carry their numbers

A grammar that is built in place keeps the number of each symbol and each rule
together with it.  A computation that builds in place is compared with steps of
definitions, which fail or lead to a definition (`Builder.RunsTo`): it gives the same
answer, and leaves the builder of that definition.  After a failure the builder is
given up, so it does not matter how much has been built by then.

Reading a text in place gives the grammar that is read, with its numbers
(`StoredGrammar.ofText_eq`).
-/

namespace GrammarAnalysis

/-- A grammar whose symbols and rules carry their numbers. -/
structure StoredGrammar where
  terminals : OrderedMap TerminalId (Numbered String)
  nonterminals : OrderedMap NonterminalId (Numbered String)
  rules : OrderedMap RuleId (Numbered Rule)
  start : NonterminalId

/-- The grammar with the numbers of its symbols and rules beside them. -/
def Grammar.stored (g : Grammar) : StoredGrammar :=
  ⟨g.terminals.numbered, g.nonterminals.numbered, g.rules.numbered, g.start⟩

/-! ## Computations in place -/

namespace Builder

/-- The builder that declares the end of input only. -/
def empty : Builder where
  terminals := OrderedMap.ofList [(endOfInput, ⟨endOfInput, endOfInputName⟩)]
  nonterminals := ∅
  rules := ∅
  start := none
  nextTerminal := 1
  nextNonterminal := 1
  nextRule := 1

/-- The grammar that has been built, with the given start symbol. -/
def finish (b : Builder) (start : NonterminalId) : StoredGrammar :=
  ⟨b.terminals, b.nonterminals, b.rules, start⟩

/-- The grammar that has been built.  Without a chosen start symbol the first declared
nonterminal is taken. -/
def toGrammar (b : Builder) : Except GrammarError StoredGrammar :=
  match b.start.or b.nonterminals.keys.head? with
  | some start => .ok (b.finish start)
  | none => .error .empty

/-- The definition that has been built so far. -/
def look : Building Definition := return (← get).definition

variable {α β : Type} {x : Building α} {y : α → Building β} {d : Definition}
  {result : Except GrammarError (α × Definition)}

/-- Whether a computation that starts from the builder of a definition gives the answer of
some steps of the definition, and leaves the builder of the definition that they lead to. -/
def RunsTo (x : Building α) (d : Definition) : Except GrammarError (α × Definition) → Prop
  | .ok (a, d') => outcome x d.builder = (.ok a, d'.builder)
  | .error e => (outcome x d.builder).1 = .error e

theorem runsTo_of_inPlace (h : outcome x d.builder = d.inPlace result) : RunsTo x d result := by
  cases result with
  | ok made => exact h
  | error e => exact congrArg Prod.fst h

theorem runsTo_pure (a : α) (d : Definition) : RunsTo (pure a) d (.ok (a, d)) := rfl

/-- Only what a computation answers and leaves behind matters. -/
theorem RunsTo.congr {z : Building α} {d' : Definition} (h : RunsTo z d' result)
    (heq : outcome x d.builder = outcome z d'.builder) : RunsTo x d result := by
  cases result with
  | ok made => exact heq.trans h
  | error e => exact (congrArg Prod.fst heq).trans h

/-- Looking at the definition changes nothing. -/
theorem runsTo_look_bind {y : Definition → Building α} (h : RunsTo (y d) d result) :
    RunsTo (look >>= y) d result := by
  have hlook : outcome look d.builder = (.ok d, d.builder) :=
    congrArg (fun d' => (Except.ok d', d.builder)) (Definition.definition_builder d)
  exact h.congr (outcome_bind_of_ok hlook)

/-- Computations in sequence run to the steps in sequence. -/
theorem runsTo_bind {next : α → Definition → Except GrammarError (β × Definition)}
    (h : RunsTo x d result)
    (hnext : ∀ a d', result = .ok (a, d') → RunsTo (y a) d' (next a d')) :
    RunsTo (x >>= y) d (result >>= fun made => next made.1 made.2) := by
  cases result with
  | error e =>
      have hfailed : outcome x d.builder = (.error e, (outcome x d.builder).2) := Prod.ext h rfl
      exact congrArg Prod.fst (outcome_bind_of_error hfailed)
  | ok made => exact (hnext made.1 made.2 rfl).congr (outcome_bind_of_ok h)

/-! ## Reading in place -/

/-- Declares the heads as nonterminals, each once. -/
def declareHeads : List String → Building Unit
  | [] => return ()
  | head :: heads => do
    let d ← look
    if d.nonterminals.values.contains head then declareHeads heads
    else do
      let _ ← declareNonterminal head
      declareHeads heads

/-- The symbol with the given name, which is declared as a terminal if it is new. -/
def resolve (name : String) : Building Symbol := do
  let d ← look
  match d.symbolNamed? name with
  | some symbol => return symbol
  | none => do
    let t ← declareTerminal name
    return .terminal t

/-- The symbols with the given names. -/
def resolveAll : List String → Building (List Symbol)
  | [] => return []
  | name :: names => do
    let symbol ← resolve name
    let symbols ← resolveAll names
    return symbol :: symbols

/-- Adds a rule given by names.  Nothing is added if the head is no nonterminal. -/
def addNamedRule (head : String) (body : List String) : Building Unit := do
  let d ← look
  match d.symbolNamed? head with
  | some (.nonterminal n) => do
    let symbols ← resolveAll body
    let _ ← addRule ⟨n, symbols⟩
    return ()
  | _ => return ()

/-- Adds rules given by names, in order. -/
def addNamedRules : List (String × List String) → Building Unit
  | [] => return ()
  | rule :: rules => do
    addNamedRule rule.1 rule.2
    addNamedRules rules

/-- Declares the heads of the productions, and adds their rules. -/
def addProductions (productions : List Production) : Building Unit := do
  declareHeads (productions.map Production.headName)
  addNamedRules (productions.flatMap fun production =>
    production.bodies.map fun body => (production.headName, body))

/-- The steps of a definition that have no answer. -/
def silent (result : Except GrammarError Definition) : Except GrammarError (Unit × Definition) :=
  result.map fun d => ((), d)

theorem silent_bind {γ : Type} (steps : Except GrammarError γ)
    (next : γ → Except GrammarError Definition) :
    silent (steps >>= next) = steps >>= fun made => silent (next made) := by
  cases steps <;> rfl

theorem silent_bind_silent (steps : Except GrammarError Definition)
    (next : Definition → Except GrammarError Definition) :
    silent (steps >>= next) = silent steps >>= fun made => silent (next made.2) := by
  cases steps <;> rfl

theorem runsTo_declareHeads (heads : List String) (d : Definition) :
    RunsTo (declareHeads heads) d (silent (d.declareHeads heads)) := by
  induction heads generalizing d with
  | nil => exact runsTo_pure () d
  | cons head heads ih =>
      rw [declareHeads, Definition.declareHeads]
      refine runsTo_look_bind ?_
      split
      · exact ih d
      · rw [silent_bind]
        exact runsTo_bind (runsTo_of_inPlace (d.outcome_declareNonterminal head))
          fun _ d' _ => ih d'

theorem runsTo_resolve (name : String) (d : Definition) :
    RunsTo (resolve name) d (d.resolve name) := by
  rw [resolve, Definition.resolve]
  refine runsTo_look_bind ?_
  cases d.symbolNamed? name with
  | some symbol => exact runsTo_pure symbol d
  | none =>
      exact runsTo_bind (runsTo_of_inPlace (d.outcome_declareTerminal name))
        fun t d' _ => runsTo_pure (Symbol.terminal t) d'

theorem runsTo_resolveAll (names : List String) (d : Definition) :
    RunsTo (resolveAll names) d (d.resolveAll names) := by
  induction names generalizing d with
  | nil => exact runsTo_pure [] d
  | cons name names ih =>
      rw [resolveAll, Definition.resolveAll]
      exact runsTo_bind (runsTo_resolve name d) fun symbol d' _ =>
        runsTo_bind (ih d') fun symbols d'' _ => runsTo_pure _ d''

theorem runsTo_addNamedRule (head : String) (body : List String) (d : Definition) :
    RunsTo (addNamedRule head body) d (silent (d.addNamedRule head body)) := by
  rw [addNamedRule, Definition.addNamedRule]
  refine runsTo_look_bind ?_
  cases d.symbolNamed? head with
  | none => exact runsTo_pure () d
  | some symbol =>
      cases symbol with
      | terminal t => exact runsTo_pure () d
      | nonterminal n =>
          simp only [silent_bind]
          exact runsTo_bind (runsTo_resolveAll body d) fun symbols d' _ =>
            runsTo_bind (runsTo_of_inPlace (d'.outcome_addRule n symbols))
              fun _ d'' _ => runsTo_pure () d''

theorem runsTo_addNamedRules (rules : List (String × List String)) (d : Definition) :
    RunsTo (addNamedRules rules) d
      (silent (rules.foldlM (fun d rule => d.addNamedRule rule.1 rule.2) d)) := by
  induction rules generalizing d with
  | nil => exact runsTo_pure () d
  | cons rule rules ih =>
      rw [addNamedRules, List.foldlM_cons, silent_bind_silent]
      exact runsTo_bind (runsTo_addNamedRule rule.1 rule.2 d) fun _ d' _ => ih d'

theorem runsTo_addProductions (productions : List Production) (d : Definition) :
    RunsTo (addProductions productions) d
      (silent (d.declareHeads (productions.map Production.headName) >>= fun d' =>
        d'.addProductions productions)) := by
  rw [addProductions, silent_bind_silent]
  exact runsTo_bind (runsTo_declareHeads _ d) fun _ d' _ => runsTo_addNamedRules _ d'

end Builder

/-! ## Grammars that are read in place -/

namespace StoredGrammar

/-- The grammar of the productions, built in place. -/
def ofProductions (productions : List Production) : Except GrammarError StoredGrammar :=
  if productions.isEmpty then .error .empty
  else
    match Builder.outcome (Builder.addProductions productions) .empty with
    | (.ok _, b) => b.toGrammar
    | (.error e, _) => .error e

/-- Reads a grammar, and builds it in place. -/
def ofText (text : String) : Except GrammarError StoredGrammar := do
  let productions ← Production.ofLines ((Text.lines text.toList).zipIdx 1)
  ofProductions productions

end StoredGrammar

theorem Definition.toGrammar_builder (d : Definition) :
    d.builder.toGrammar = d.toGrammar.map Grammar.stored := by
  have hkeys : d.builder.nonterminals.keys = d.nonterminals.keys := OrderedMap.keys_numbered _
  have hstart : d.builder.start = d.start := rfl
  rw [Builder.toGrammar, hkeys, hstart, Definition.toGrammar]
  cases d.start.or d.nonterminals.keys.head? <;> rfl

namespace StoredGrammar

/-- The grammar of a builder that runs to a definition is the grammar of the definition. -/
theorem toGrammar_of_runsTo {building : Building Unit} {d : Definition}
    {steps : Except GrammarError Definition}
    (h : Builder.RunsTo building d (Builder.silent steps)) :
    (match Builder.outcome building d.builder with
      | (.ok _, b) => b.toGrammar
      | (.error e, _) => .error e) = (steps >>= Definition.toGrammar).map Grammar.stored := by
  cases steps with
  | ok d' =>
      rw [show Builder.outcome building d.builder = (.ok (), d'.builder) from h]
      exact d'.toGrammar_builder
  | error e =>
      have hfailed : Builder.outcome building d.builder =
          (.error e, (Builder.outcome building d.builder).2) := Prod.ext h rfl
      rw [hfailed]
      rfl

/-- Reading in place gives the grammar that is read, with its numbers. -/
theorem ofText_eq (text : String) : ofText text = (Grammar.ofText text).map Grammar.stored := by
  have hproductions : ∀ productions,
      ofProductions productions = (Grammar.ofProductions productions).map Grammar.stored := by
    intro productions
    rw [ofProductions, Grammar.ofProductions]
    split
    · rfl
    · rw [← bind_assoc]
      exact toGrammar_of_runsTo (Builder.runsTo_addProductions productions .empty)
  rw [ofText, Grammar.ofText]
  cases Production.ofLines ((Text.lines text.toList).zipIdx 1) with
  | error e => rfl
  | ok productions => exact hproductions productions

end StoredGrammar

end GrammarAnalysis

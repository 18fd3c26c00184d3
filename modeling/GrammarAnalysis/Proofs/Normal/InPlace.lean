import GrammarAnalysis.Proofs.Grammar.Stored
import GrammarAnalysis.Proofs.Normal.Passes

/-!
# Passes in place

Each pass can be carried out in place: it starts from the symbols of a grammar that
carries its numbers, draws a number whenever it adds a nonterminal or a rule, and is
given up when it would have to hand out the last one.  Such a computation makes what
the pass makes of the definition if that stays within the numbers, and fails otherwise
(`Builder.Matches`).  It does not matter how far a pass gets before it fails, since no
step gives numbers back.
-/

namespace GrammarAnalysis

/-! ## Steps that draw numbers -/

namespace Definition

variable {α : Type} {d : Definition}

/-- What steps make, if it stays within the numbers. -/
def within (made : α × Definition) : Except GrammarError (α × Definition) :=
  if made.2.fits then .ok made else .error .numbersExhausted

theorem drawing_eq_within {number : Nat} {made : α × Definition}
    (h : made.2.fits = true ↔ number < lastNumber) : drawing number made = within made :=
  (if_congr h rfl rfl).symm

theorem fits_appendRule_iff (hd : d.fits = true) {rule : Rule} :
    (d.appendRule rule).2.fits = true ↔ d.nextRule < lastNumber := by
  obtain ⟨hterminals, hnonterminals, -⟩ := fits_iff.mp hd
  rw [fits_iff]
  exact ⟨fun h => h.2.2, fun h => ⟨hterminals, hnonterminals, h⟩⟩

theorem fits_freshNonterminal_iff (hd : d.fits = true) {base : String} :
    (d.freshNonterminal base).2.fits = true ↔ d.nextNonterminal < lastNumber := by
  obtain ⟨hterminals, -, hrules⟩ := fits_iff.mp hd
  rw [fits_iff]
  exact ⟨fun h => h.2.1, fun h => ⟨hterminals, h, hrules⟩⟩

theorem includeRule_eq_within (hd : d.fits = true) (head : NonterminalId) (body : List Symbol) :
    d.includeRule head body = within (d.ensureRule head body) := by
  simp only [includeRule, ensureRule]
  cases d.ruleId? ⟨head, body⟩ with
  | some id => exact (if_pos hd).symm
  | none => exact drawing_eq_within (fits_appendRule_iff hd)

theorem declareFresh_eq_within (hd : d.fits = true) (base : String) :
    d.declareFresh base = within (d.freshNonterminal base) :=
  drawing_eq_within (fits_freshNonterminal_iff hd)

/-- No edit gives a number back. -/
theorem Edits.fits {d' : Definition} (h : d.Edits d') (hfits : d'.fits = true) : d.fits = true := by
  induction h with
  | refl => exact hfits
  | retain _ keep ih => exact ih hfits
  | @ensureRule d' _ head body ih =>
      refine ih ?_
      rcases d'.ensureRule_cases head body with h | h
      · rwa [h] at hfits
      · rw [h, fits_iff] at hfits
        exact fits_iff.mpr ⟨hfits.1, hfits.2.1, Nat.le_of_succ_le hfits.2.2⟩
  | freshNonterminal _ base ih =>
      rw [fits_iff] at hfits
      exact ih (fits_iff.mpr ⟨hfits.1, Nat.le_of_succ_le hfits.2.1, hfits.2.2⟩)

end Definition

namespace Builder

open Definition (within)

variable {α β : Type} {x : Building α} {y : α → Building β} {f f' : Definition → α × Definition}
  {g : α → Definition → β × Definition}

/-- Whether a computation in place makes what the steps make of the definition, as long as that
stays within the numbers. -/
structure Matches (x : Building α) (f : Definition → α × Definition) : Prop where
  fits : ∀ d, (f d).2.fits = true → d.fits = true
  runsTo : ∀ d, d.fits = true → RunsTo x d (within (f d))

theorem Matches.congr (h : Matches x f) (heq : ∀ d, f d = f' d) : Matches x f' :=
  funext heq ▸ h

theorem matches_pure (a : α) : Matches (pure a) fun d => (a, d) where
  fits _ h := h
  runsTo d hd := by
    rw [within, if_pos hd]
    exact runsTo_pure a d

theorem Matches.bind (hx : Matches x f) (hy : ∀ a, Matches (y a) (g a)) :
    Matches (x >>= y) fun d => g (f d).1 (f d).2 where
  fits d h := hx.fits d ((hy _).fits _ h)
  runsTo d hd := by
    have hfirst := hx.runsTo d hd
    cases hfits : (f d).2.fits with
    | true =>
        rw [within, if_pos hfits] at hfirst
        have hrest : ∀ a d', (.ok (f d) : Except GrammarError _) = .ok (a, d') →
            RunsTo (y a) d' (within (g a d')) := fun a d' heq =>
          (hy a).runsTo d' (by rwa [Except.ok.inj heq] at hfits)
        exact runsTo_bind hfirst hrest
    | false =>
        have hlater : ¬ (g (f d).1 (f d).2).2.fits = true := fun h => by
          rw [(hy _).fits _ h] at hfits
          contradiction
        rw [within, if_neg (by simp [hfits])] at hfirst
        rw [within, if_neg hlater]
        have hrest : ∀ a d', (.error .numbersExhausted : Except GrammarError _) = .ok (a, d') →
            RunsTo (y a) d' (within (g a d')) := fun a d' heq => nomatch heq
        exact runsTo_bind hfirst hrest

theorem Matches.look_bind {y : Definition → Building β}
    {g : Definition → Definition → β × Definition}
    (hy : ∀ d, Matches (y d) (g d)) : Matches (look >>= y) fun d => g d d where
  fits d h := (hy d).fits d h
  runsTo d hd := runsTo_look_bind ((hy d).runsTo d hd)

/-- An answer that is not needed is dropped. -/
theorem Matches.silent (hx : Matches x f) :
    Matches (do let _ ← x; return ()) fun d => ((), (f d).2) :=
  hx.bind fun _ => matches_pure ()

/-! ## Edits in place -/

/-- Chooses the start symbol. -/
def setStart (n : NonterminalId) : Building Unit := modify fun b => { b with start := some n }

theorem matches_ensureRule (head : NonterminalId) (body : List Symbol) :
    Matches (ensureRule ⟨head, body⟩) fun d => d.ensureRule head body where
  fits d h := ((Definition.Edits.refl d).ensureRule head body).fits h
  runsTo d hd := by
    rw [← Definition.includeRule_eq_within hd]
    exact runsTo_of_inPlace (d.outcome_ensureRule head body)

theorem matches_freshNonterminal (base : String) :
    Matches (freshNonterminal base) fun d => d.freshNonterminal base where
  fits d h := ((Definition.Edits.refl d).freshNonterminal base).fits h
  runsTo d hd := by
    rw [← Definition.declareFresh_eq_within hd]
    exact runsTo_of_inPlace (d.outcome_freshNonterminal base)

theorem matches_retain (keep : Symbol → Bool) :
    Matches (retain keep) fun d => ((), d.retain keep) where
  fits _ h := h
  runsTo d hd := by
    rw [within, if_pos (show (d.retain keep).fits = true from hd)]
    exact d.outcome_retain keep

theorem matches_setStart (n : NonterminalId) :
    Matches (setStart n) fun d => ((), d.setStart n) where
  fits _ h := h
  runsTo d hd := by
    rw [within, if_pos (show (d.setStart n).fits = true from hd)]
    rfl

/-- Doing something for each of the listed values, in order. -/
theorem matches_forM {γ : Type} {bs : List γ} {z : γ → Building Unit}
    {step : Definition → γ → Definition} (hz : ∀ b, Matches (z b) fun d => ((), step d b)) :
    Matches (bs.forM z) fun d => ((), bs.foldl step d) := by
  induction bs with
  | nil => exact matches_pure ()
  | cons b bs ih => exact (hz b).bind fun _ => ih

/-- Adds the rules that have not been added before, in order. -/
def ensureRules (head : NonterminalId) (bodies : List (List Symbol)) : Building Unit :=
  bodies.forM fun body => do
    let _ ← ensureRule ⟨head, body⟩
    return ()

/-- Adds the rules of a grammar, in order, leaving out repetitions. -/
def copyRules (g : Grammar) : Building Unit :=
  g.rules.values.forM fun rule => do
    let _ ← ensureRule ⟨rule.head, rule.body⟩
    return ()

theorem matches_ensureRules (head : NonterminalId) (bodies : List (List Symbol)) :
    Matches (ensureRules head bodies) fun d => ((), d.ensureRules head bodies) :=
  matches_forM fun body => (matches_ensureRule head body).silent

theorem matches_copyRules (g : Grammar) : Matches (copyRules g) fun d => ((), d.copyRules g) :=
  matches_forM fun rule => (matches_ensureRule rule.head rule.body).silent

/-! ## The passes -/

/-- Adds the rules of one nonterminal without left recursion. -/
def addWithoutRecursion (g : Grammar) (n : NonterminalId) (name : String) : Building Unit :=
  match g.recursiveTails n with
  | [] => ensureRules n (g.otherBodies n)
  | tails => do
    let tail ← freshNonterminal name
    let closed := fun body : List Symbol => body ++ [.nonterminal tail]
    ensureRules n ((g.otherBodies n).map closed)
    ensureRules tail (tails.map closed ++ [[]])

/-- Adds the rules of all nonterminals without left recursion. -/
def addRecursionFree (g : Grammar) : Building Unit :=
  g.nonterminals.entries.forM fun entry => addWithoutRecursion g entry.1 entry.2

theorem matches_addWithoutRecursion (g : Grammar) (n : NonterminalId) (name : String) :
    Matches (addWithoutRecursion g n name) fun d => ((), g.addWithoutRecursion d n name) := by
  simp only [addWithoutRecursion, Grammar.addWithoutRecursion]
  cases g.recursiveTails n with
  | nil => exact matches_ensureRules n _
  | cons first more =>
      exact (matches_freshNonterminal name).bind fun tail =>
        (matches_ensureRules n _).bind fun _ => matches_ensureRules tail _

theorem matches_addRecursionFree (g : Grammar) :
    Matches (addRecursionFree g) fun d => ((), g.addRecursionFree d) :=
  matches_forM fun entry => matches_addWithoutRecursion g entry.1 entry.2

/-- Adds the rules for one group of bodies. -/
def addGroup (head : NonterminalId) :
    Option Symbol × List (List Symbol) → Building (List PendingBodies)
  | (some first, body :: other :: more) => do
    let d ← look
    let tail ← freshNonterminal ((d.nonterminals.get? head).getD "")
    let _ ← ensureRule ⟨head, [first, .nonterminal tail]⟩
    return [⟨tail, (body :: other :: more).map List.tail⟩]
  | (_, bodies) => do
    ensureRules head bodies
    return []

/-- Adds the rules for the groups in order, and collects what is left to do. -/
def addGroups (head : NonterminalId) :
    List (Option Symbol × List (List Symbol)) → Building (List PendingBodies)
  | [] => return []
  | group :: groups => do
    let tails ← addGroup head group
    let more ← addGroups head groups
    return tails ++ more

/-- Factors the pending nonterminals, with at most `bound` of them in all. -/
def factor : Nat → List PendingBodies → Building Unit
  | 0, _ => return ()
  | _ + 1, [] => return ()
  | bound + 1, pending :: queue => do
    let tails ← addGroups pending.head pending.groups
    factor bound (queue ++ tails)

/-- Adds the factored rules of all nonterminals. -/
def addFactored (g : Grammar) : Building Unit :=
  let pending := g.nonterminals.keys.map fun n => (⟨n, g.bodiesOf n⟩ : PendingBodies)
  factor (totalBy PendingBodies.weight pending) pending

theorem matches_addGroup (head : NonterminalId) (group : Option Symbol × List (List Symbol)) :
    Matches (addGroup head group) fun d => (d.addGroup head group).swap := by
  match group with
  | (some first, body :: other :: more) =>
      exact Matches.look_bind fun d => (matches_freshNonterminal _).bind fun tail =>
        (matches_ensureRule head _).bind fun _ => matches_pure _
  | (some first, [body]) => exact (matches_ensureRules head _).bind fun _ => matches_pure []
  | (some first, []) => exact (matches_ensureRules head _).bind fun _ => matches_pure []
  | (none, bodies) => exact (matches_ensureRules head bodies).bind fun _ => matches_pure []

theorem matches_addGroups (head : NonterminalId)
    (groups : List (Option Symbol × List (List Symbol))) :
    Matches (addGroups head groups) fun d => (d.addGroups head groups).swap := by
  induction groups with
  | nil => exact matches_pure []
  | cons group groups ih =>
      exact (matches_addGroup head group).bind fun tails => ih.bind fun more =>
        matches_pure (tails ++ more)

theorem matches_factor (bound : Nat) (queue : List PendingBodies) :
    Matches (factor bound queue) fun d => ((), d.factor bound queue) := by
  induction bound generalizing queue with
  | zero => exact matches_pure ()
  | succ bound ih =>
      cases queue with
      | nil => exact matches_pure ()
      | cons pending queue =>
          exact (matches_addGroups pending.head pending.groups).bind fun tails =>
            ih (queue ++ tails)

theorem matches_addFactored (g : Grammar) :
    Matches (addFactored g) fun d => ((), g.addFactored d) :=
  matches_factor _ _

/-- Adds all rules, and drops the useless symbols. -/
def addUseful (g : Grammar) : Building Unit := do
  let generating := g.generating
  let reached := g.reachableSymbols generating
  copyRules g
  retain fun symbol => reached.contains symbol && Grammar.counts true generating symbol

/-- Adds the rules that replace those of the grammar. -/
def addEpsilonFree (g : Grammar) : Building Unit :=
  let nullable := g.nullable
  g.rules.values.forM fun rule => ensureRules rule.head (Grammar.epsilonFreeBodies nullable rule)

/-- Adds the bodies of all nonterminals without unit rules. -/
def addUnitFree (g : Grammar) : Building Unit :=
  let reach := g.unitReach
  g.nonterminals.keys.forM fun n => ensureRules n (g.unitFreeBodies reach n)

/-- Adds all rules, and a fresh start symbol that derives the present one and the empty
word. -/
def addEmptyStart (g : Grammar) : Building Unit := do
  copyRules g
  let d ← look
  let fresh ← freshNonterminal ((d.nonterminals.get? g.start).getD "")
  ensureRules fresh [[.nonterminal g.start], []]
  setStart fresh

theorem matches_addUseful (g : Grammar) : Matches (addUseful g) fun d => ((), g.addUseful d) :=
  (matches_copyRules g).bind fun _ => matches_retain _

theorem matches_addEpsilonFree (g : Grammar) :
    Matches (addEpsilonFree g) fun d => ((), g.addEpsilonFree d) :=
  matches_forM fun rule => matches_ensureRules rule.head _

theorem matches_addUnitFree (g : Grammar) :
    Matches (addUnitFree g) fun d => ((), g.addUnitFree d) :=
  matches_forM fun n => matches_ensureRules n _

theorem matches_addEmptyStart (g : Grammar) :
    Matches (addEmptyStart g) fun d => ((), g.addEmptyStart d) :=
  (matches_copyRules g).bind fun _ => .look_bind fun _ =>
    (matches_freshNonterminal _).bind fun fresh =>
      (matches_ensureRules fresh _).bind fun _ => matches_setStart fresh

end Builder

/-! ## Grammars that are rebuilt in place -/

namespace StoredGrammar

/-- The grammar without the numbers that are carried. -/
def plain (s : StoredGrammar) : Grammar :=
  ⟨s.terminals.plainValues, s.nonterminals.plainValues, s.rules.plainValues, s.start⟩

/-- The builder with the symbols of the grammar, and no rules. -/
def builder (s : StoredGrammar) : Builder where
  terminals := s.terminals
  nonterminals := s.nonterminals
  rules := ∅
  start := some s.start
  nextTerminal := nextNumber s.terminals.keys
  nextNonterminal := nextNumber s.nonterminals.keys
  nextRule := 1

/-- A grammar over the symbols of this one, with what is built, if numbers do not run out. -/
def rebuild? (s : StoredGrammar) (building : Building Unit) : Option StoredGrammar :=
  match Builder.outcome building s.builder with
  | (.ok _, b) => some (b.finish (b.start.getD s.start))
  | (.error _, _) => none

def withoutLeftRecursion? (s : StoredGrammar) : Option StoredGrammar :=
  s.rebuild? (Builder.addRecursionFree s.plain)

def withoutCommonPrefix? (s : StoredGrammar) : Option StoredGrammar :=
  s.rebuild? (Builder.addFactored s.plain)

def withoutUselessSymbols? (s : StoredGrammar) : Option StoredGrammar :=
  s.rebuild? (Builder.addUseful s.plain)

def withoutEpsilonRules? (s : StoredGrammar) : Option StoredGrammar :=
  s.rebuild? (Builder.addEpsilonFree s.plain)

def withoutUnitRules? (s : StoredGrammar) : Option StoredGrammar :=
  s.rebuild? (Builder.addUnitFree s.plain)

def withEmptyStart? (s : StoredGrammar) : Option StoredGrammar :=
  s.rebuild? (Builder.addEmptyStart s.plain)

/-- The grammar without useless symbols, epsilon rules and unit rules, up to the rules of a
fresh start symbol. -/
def almostNormalForm? (s : StoredGrammar) : Option StoredGrammar := do
  let useful ← s.withoutUselessSymbols?
  let epsilonFree ← useful.withoutEpsilonRules?
  let unitFree ← epsilonFree.withoutUnitRules?
  if useful.plain.acceptsEmptyWord then unitFree.withEmptyStart? else some unitFree

/-- The grammar after a pass in place. -/
def perform? (s : StoredGrammar) : Pass → Option StoredGrammar
  | .leftRecursion => s.withoutLeftRecursion?
  | .commonPrefix => s.withoutCommonPrefix?
  | .uselessSymbols => s.withoutUselessSymbols?
  | .epsilonRules => s.withoutEpsilonRules?
  | .unitRules => s.withoutUnitRules?
  | .almostNormalForm => s.almostNormalForm?

/-- The grammar after some passes in place, one after the other. -/
def performAll? (s : StoredGrammar) (passes : List Pass) : Option StoredGrammar :=
  passes.foldlM perform? s

end StoredGrammar

namespace Grammar

open StoredGrammar (plain)

variable {g : Grammar}

theorem plain_stored (g : Grammar) : g.stored.plain = g := by
  simp only [stored, plain, OrderedMap.plainValues_numbered]

theorem builder_stored (g : Grammar) : g.stored.builder = g.toDefinition.builder := by
  simp only [stored, StoredGrammar.builder, toDefinition, Definition.builder,
    OrderedMap.keys_numbered]
  rfl

theorem InRange.fits_toDefinition (h : g.InRange) : g.toDefinition.fits = true := by
  have hbound : 0 < lastNumber := by decide
  exact Definition.fits_iff.mpr ⟨(nextNumber_le_iff hbound).mpr h.terminals,
    (nextNumber_le_iff hbound).mpr h.nonterminals, hbound⟩

/-- Rebuilding in place gives the rebuilt grammar, with its numbers. -/
theorem rebuild?_stored (hrange : g.InRange) {building : Grammar → Building Unit}
    {build : Definition → Definition} (h : Builder.Matches (building g) fun d => ((), build d)) :
    g.stored.rebuild? (building g.stored.plain) = (g.rebuild? build).map stored := by
  have hrun := h.runsTo g.toDefinition hrange.fits_toDefinition
  rw [plain_stored, StoredGrammar.rebuild?, builder_stored, rebuild?]
  cases hfits : (build g.toDefinition).fits with
  | true =>
      rw [Definition.within, if_pos hfits] at hrun
      rw [show Builder.outcome (building g) g.toDefinition.builder = _ from hrun]
      rfl
  | false =>
      rw [Definition.within, if_neg (by simp [hfits])] at hrun
      have hfailed : Builder.outcome (building g) g.toDefinition.builder =
          (.error .numbersExhausted, (Builder.outcome (building g) g.toDefinition.builder).2) :=
        Prod.ext hrun rfl
      rw [hfailed]
      rfl

theorem withoutUselessSymbols?_stored (hrange : g.InRange) :
    g.stored.withoutUselessSymbols? = g.withoutUselessSymbols?.map stored :=
  rebuild?_stored hrange (Builder.matches_addUseful g)

theorem withoutEpsilonRules?_stored (hrange : g.InRange) :
    g.stored.withoutEpsilonRules? = g.withoutEpsilonRules?.map stored :=
  rebuild?_stored hrange (Builder.matches_addEpsilonFree g)

theorem withoutUnitRules?_stored (hrange : g.InRange) :
    g.stored.withoutUnitRules? = g.withoutUnitRules?.map stored :=
  rebuild?_stored hrange (Builder.matches_addUnitFree g)

theorem withEmptyStart?_stored (hrange : g.InRange) :
    g.stored.withEmptyStart? = g.withEmptyStart?.map stored :=
  rebuild?_stored hrange (Builder.matches_addEmptyStart g)

/-- The stages of the last pass have their numbers below the last one as long as there is a
next stage. -/
theorem almostNormalForm?_stored (hrange : g.InRange) :
    g.stored.almostNormalForm? = (g.almostNormalForm?.map Prod.fst).map stored := by
  rw [StoredGrammar.almostNormalForm?, withoutUselessSymbols?_stored hrange, almostNormalForm?]
  cases huseful : g.withoutUselessSymbols? with
  | none => rfl
  | some useful =>
      have hfree := withoutEpsilonRules?_stored (inRange_of_withoutUselessSymbols? huseful)
      simp only [Option.bind_eq_bind, Option.map_some, Option.bind_some, hfree, plain_stored]
      cases hepsilon : useful.withoutEpsilonRules? with
      | none => rfl
      | some epsilonFree =>
          have hunit := withoutUnitRules?_stored
            (eq_and_inRange_of_ite (useful.withoutEpsilonRules?_eq ▸ hepsilon)).2
          simp only [Option.map_some, Option.bind_some, hunit]
          cases hcore : epsilonFree.withoutUnitRules? with
          | none => rfl
          | some core =>
              have hstart := withEmptyStart?_stored
                (eq_and_inRange_of_ite (epsilonFree.withoutUnitRules?_eq ▸ hcore)).2
              simp only [Option.map_some, Option.bind_some, restoreEmptyWord?, hstart]
              cases useful.acceptsEmptyWord with
              | true => cases core.withEmptyStart? <;> rfl
              | false => rfl

/-- A pass in place makes what the pass makes, with its numbers. -/
theorem perform?_stored (hrange : g.InRange) (pass : Pass) :
    g.stored.perform? pass = (g.perform? pass).map stored := by
  cases pass with
  | leftRecursion => exact rebuild?_stored hrange (Builder.matches_addRecursionFree g)
  | commonPrefix => exact rebuild?_stored hrange (Builder.matches_addFactored g)
  | uselessSymbols => exact withoutUselessSymbols?_stored hrange
  | epsilonRules => exact withoutEpsilonRules?_stored hrange
  | unitRules => exact withoutUnitRules?_stored hrange
  | almostNormalForm => exact almostNormalForm?_stored hrange

theorem performAll?_stored (hg : g.IsPlain) (hrange : g.InRange) (passes : List Pass) :
    g.stored.performAll? passes = (g.performAll? passes).map stored := by
  induction passes generalizing g with
  | nil => rfl
  | cons pass passes ih =>
      rw [StoredGrammar.performAll?, performAll?, List.foldlM_cons, List.foldlM_cons,
        perform?_stored hrange]
      cases hfirst : g.perform? pass with
      | none => rfl
      | some g' =>
          obtain ⟨hplain, hrange'⟩ := eq_apply_of_perform? hg hrange hfirst
          exact ih (hplain ▸ isPlain_apply hg pass) hrange'

end Grammar

/-! ## Grammars that are read from text -/

namespace StoredGrammar

/-- Whether a symbol is declared. -/
def Declares (s : StoredGrammar) : Symbol → Prop
  | .terminal t => t ∈ s.terminals.keys
  | .nonterminal n => n ∈ s.nonterminals.keys

/-- Every symbol and every rule is stored under the number that it carries, symbols have names
of their own, rules are not repeated, and every symbol that is mentioned is declared. -/
structure WellFormed (s : StoredGrammar) : Prop where
  terminals_numbered : ∀ entry ∈ s.terminals.entries, entry.1 = entry.2.id
  nonterminals_numbered : ∀ entry ∈ s.nonterminals.entries, entry.1 = entry.2.id
  rules_numbered : ∀ entry ∈ s.rules.entries, entry.1 = entry.2.id
  names_nodup :
    (s.terminals.values.map Numbered.value ++ s.nonterminals.values.map Numbered.value).Nodup
  rules_nodup : (s.rules.values.map Numbered.value).Nodup
  start_declared : s.Declares (.nonterminal s.start)
  heads_declared : ∀ rule ∈ s.rules.values.map Numbered.value,
    s.Declares (.nonterminal rule.head)
  bodies_declared : ∀ rule ∈ s.rules.values.map Numbered.value, ∀ symbol ∈ rule.body,
    s.Declares symbol

theorem declares_stored_iff {g : Grammar} {symbol : Symbol} :
    g.stored.Declares symbol ↔ g.Declares symbol := by
  cases symbol with
  | terminal t => simp only [Declares, Grammar.stored, Grammar.Declares, OrderedMap.keys_numbered]
  | nonterminal n =>
      simp only [Declares, Grammar.stored, Grammar.Declares, OrderedMap.keys_numbered]

theorem wellFormed_stored {g : Grammar} (hg : g.WellFormed) : g.stored.WellFormed where
  terminals_numbered _ h := OrderedMap.fst_eq_id_of_mem_numbered h
  nonterminals_numbered _ h := OrderedMap.fst_eq_id_of_mem_numbered h
  rules_numbered _ h := OrderedMap.fst_eq_id_of_mem_numbered h
  names_nodup := by
    simpa only [Grammar.stored, OrderedMap.map_value_numbered] using hg.names_nodup
  rules_nodup := by
    simpa only [Grammar.stored, OrderedMap.map_value_numbered] using hg.rules_nodup
  start_declared := declares_stored_iff.mpr hg.start_declared
  heads_declared rule hrule := declares_stored_iff.mpr <| hg.heads_declared rule <| by
    simpa only [Grammar.stored, OrderedMap.map_value_numbered] using hrule
  bodies_declared rule hrule symbol hs := declares_stored_iff.mpr <|
    hg.bodies_declared rule (by
      simpa only [Grammar.stored, OrderedMap.map_value_numbered] using hrule) symbol hs

/-- The grammar to whose symbols a pass adds fresh ones.  The last pass drops useless symbols
first. -/
def trimmedFor? (s : StoredGrammar) : Pass → Option StoredGrammar
  | .almostNormalForm => s.withoutUselessSymbols?
  | _ => some s

theorem trimmedFor?_stored {g : Grammar} (hg : g.IsPlain) (hrange : g.InRange) (pass : Pass) :
    g.stored.trimmedFor? pass = some (g.trimmedFor pass).stored := by
  cases pass with
  | almostNormalForm =>
      rw [trimmedFor?, Grammar.withoutUselessSymbols?_stored hrange,
        Grammar.withoutUselessSymbols?_eq hg hrange]
      rfl
  | _ => rfl

/-- Every grammar that is made in place by passes from one that is read from text is well
formed, with each symbol and each rule under the number that it carries.  Each further pass adds
no terminals, and it keeps the names and numbers of symbols.  Its fresh nonterminals have numbers
above all in use where they are added: in its input, and for the last pass in its input without
useless symbols. -/
theorem wellFormed_performAll? {text : String} {s₀ s : StoredGrammar} {passes : List Pass}
    (hread : ofText text = .ok s₀) (hs : s₀.performAll? passes = some s) :
    s.WellFormed ∧
      ∀ pass s', s.perform? pass = some s' →
        (∀ entry ∈ s'.terminals.entries, entry ∈ s.terminals.entries) ∧
        ∃ input, s.trimmedFor? pass = some input ∧
          ∀ entry ∈ s'.nonterminals.entries, entry ∈ s.nonterminals.entries ∨
            ∀ n ∈ input.nonterminals.keys, n < entry.1 := by
  rw [ofText_eq] at hread
  obtain ⟨g₀, hg₀, rfl⟩ := exists_of_map_eq_ok hread
  rw [Grammar.performAll?_stored (Grammar.isPlain_of_ofText hg₀)
    (Grammar.inRange_of_ofText hg₀)] at hs
  obtain ⟨g, hg, rfl⟩ := Option.map_eq_some_iff.mp hs
  obtain ⟨hplain, hrange⟩ := Grammar.isPlain_of_performAll? hg₀ hg
  refine ⟨wellFormed_stored hplain.toWellFormed, fun pass s' hs' => ?_⟩
  rw [Grammar.perform?_stored hrange] at hs'
  obtain ⟨g', hg', rfl⟩ := Option.map_eq_some_iff.mp hs'
  obtain ⟨rfl, -⟩ := Grammar.eq_apply_of_perform? hplain hrange hg'
  refine ⟨fun entry hentry => ?_, _, trimmedFor?_stored hplain hrange pass, fun entry hentry => ?_⟩
  · obtain ⟨t, name, ht, rfl⟩ := OrderedMap.mem_numbered_iff.mp hentry
    exact OrderedMap.mem_numbered_iff.mpr
      ⟨t, name, (Grammar.isRebuiltInStages_apply g pass).get?_terminals ht, rfl⟩
  · obtain ⟨n, name, hn, rfl⟩ := OrderedMap.mem_numbered_iff.mp hentry
    refine (Grammar.get?_nonterminals_apply hn).imp (fun hold => ?_) fun hnew m hm => ?_
    · exact OrderedMap.mem_numbered_iff.mpr ⟨n, name, hold, rfl⟩
    · rw [Grammar.stored, OrderedMap.keys_numbered] at hm
      exact hnew m hm

/-- Two passes that add nonterminals, with the name of a terminal in their way, and then the
last one, which adds a start symbol. -/
theorem wellFormed_performAll?_primed :
    ∃ s₀ s s', ofText "S -> S S' | a b | a c | epsilon\n" = .ok s₀ ∧
      s₀.performAll? [.leftRecursion, .commonPrefix] = some s ∧
      s.perform? .almostNormalForm = some s' ∧ s.WellFormed ∧
      s.nonterminals.values.map Numbered.value = ["S", "S''", "S'''"] ∧
      s'.nonterminals.values.map Numbered.value = ["S", "S''", "S'''", "S''''"] ∧
      ∃ input, s.withoutUselessSymbols? = some input ∧
        ∀ entry ∈ s'.nonterminals.entries, entry ∈ s.nonterminals.entries ∨
          ∀ n ∈ input.nonterminals.keys, n < entry.1 := by
  have hcomputed : ((ofText "S -> S S' | a b | a c | epsilon\n").toOption.bind fun s₀ =>
      (s₀.performAll? [.leftRecursion, .commonPrefix]).bind fun s =>
        (s.perform? .almostNormalForm).map fun s' =>
          (s.nonterminals.values.map Numbered.value, s'.nonterminals.values.map Numbered.value)) =
      some (["S", "S''", "S'''"], ["S", "S''", "S'''", "S''''"]) := by decide +kernel
  obtain ⟨s₀, hread, hcomputed⟩ := exists_of_bind_toOption hcomputed
  obtain ⟨s, hs, hcomputed⟩ := Option.bind_eq_some_iff.mp hcomputed
  obtain ⟨s', hs', hcomputed⟩ := Option.map_eq_some_iff.mp hcomputed
  obtain ⟨hnames, hnames'⟩ := Prod.mk.inj hcomputed
  obtain ⟨hwell, hpass⟩ := wellFormed_performAll? hread hs
  exact ⟨s₀, s, s', hread, hs, hs', hwell, hnames, hnames', (hpass .almostNormalForm s' hs').2⟩

/-- The last pass may give the start symbol that it adds the number of a useless symbol. -/
theorem almostNormalForm_reuses_number :
    ∃ s s', ofText "S -> a | epsilon\nB -> b\n" = .ok s ∧
      s.perform? .almostNormalForm = some s' ∧
      ¬ ∀ entry ∈ s'.nonterminals.entries, entry ∈ s.nonterminals.entries ∨
        entry.1 ∉ s.nonterminals.keys := by
  have hcomputed : ((ofText "S -> a | epsilon\nB -> b\n").toOption.bind fun s =>
      (s.perform? .almostNormalForm).map fun s' =>
        ((s.nonterminals.get? 2).map Numbered.value,
          (s'.nonterminals.get? 2).map Numbered.value)) =
      some (some "B", some "S'") := by decide +kernel
  obtain ⟨s, hread, hcomputed⟩ := exists_of_bind_toOption hcomputed
  obtain ⟨s', hs', hcomputed⟩ := Option.map_eq_some_iff.mp hcomputed
  obtain ⟨hold, hnew⟩ := Prod.mk.inj hcomputed
  obtain ⟨old, hold, holdName⟩ := Option.map_eq_some_iff.mp hold
  obtain ⟨new, hnew, hnewName⟩ := Option.map_eq_some_iff.mp hnew
  refine ⟨s, s', hread, hs', fun h => ?_⟩
  rcases h (2, new) (OrderedMap.get?_eq_some_iff.mp hnew) with hkept | hunused
  · rw [← OrderedMap.get?_eq_some_iff, hold, Option.some.injEq] at hkept
    rw [hkept, hnewName] at holdName
    exact absurd holdName (by decide)
  · exact hunused (OrderedMap.mem_keys_of_get? hold)

end StoredGrammar

end GrammarAnalysis

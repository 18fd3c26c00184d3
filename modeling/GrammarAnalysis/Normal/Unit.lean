import GrammarAnalysis.Grammar.Definition
import GrammarAnalysis.Iteration.Exploration
import GrammarAnalysis.Iteration.Fixpoint
import GrammarAnalysis.Iteration.Reports

/-!
# Removing unit rules

A unit rule derives a single nonterminal.  Each nonterminal takes over the
other rules of every nonterminal that it reaches through unit rules, in the
order in which these are found.
-/

namespace GrammarAnalysis

/-- The nonterminals reached through unit rules, found so far. -/
abbrev UnitReach := OrderedMap NonterminalId (List NonterminalId)

namespace UnitReach

/-- Adds targets of `n` that are not known yet. -/
def add (reach : UnitReach) (n : NonterminalId) (targets : List NonterminalId) : UnitReach :=
  reach.upsert n fun known => known.getD [] ++ unseen (known.getD []) targets

/-- The targets of the targets of `n`, without `n` itself. -/
def onward (reach : UnitReach) (n : NonterminalId) : List NonterminalId :=
  ((reach.get? n).getD []).flatMap fun m => ((reach.get? m).getD []).filter (· ≠ n)

/-- One pass over the known nonterminals, in order. -/
def step (reach : UnitReach) : UnitReach :=
  reach.keys.foldl (fun reach n => reach.add n (reach.onward n)) reach

/-- Adds targets to those of `n`, if it has any, and reports whether one of them is new. -/
def insertTargets (reach : UnitReach) (n : NonterminalId) (found : List NonterminalId) :
    UnitReach × Bool :=
  match reach.get? n with
  | none => (reach, false)
  | some known =>
    let targets := applyReporting insertNew found known
    (reach.insert n targets.1, targets.2)

/-- One pass over the known nonterminals with the report whether some targets are new. -/
def pass (reach : UnitReach) : UnitReach × Bool :=
  applyReporting (fun reach n => reach.insertTargets n (reach.onward n)) reach.keys reach

end UnitReach

namespace Grammar

/-- Whether a body is a single nonterminal. -/
def isUnitBody : List Symbol → Bool
  | [.nonterminal _] => true
  | _ => false

/-- The targets of the unit rules themselves, without `A -> A`. -/
def directUnitReach (g : Grammar) : UnitReach :=
  g.rules.values.foldl
    (fun reach rule =>
      match rule.body with
      | [.nonterminal m] => if m = rule.head then reach else reach.add rule.head [m]
      | _ => reach)
    ∅

/-- The nonterminals reached through one or more unit rules. -/
def unitReach (g : Grammar) : UnitReach :=
  stabilize UnitReach.step (g.rules.size * g.rules.size + 1) g.directUnitReach

/-- The bodies of a nonterminal after the removal: its own, then those of the
nonterminals it reaches. -/
def unitFreeBodies (g : Grammar) (reach : UnitReach) (n : NonterminalId) : List (List Symbol) :=
  (n :: (reach.get? n).getD []).flatMap fun source =>
    (g.bodiesOf source).filter fun body => !isUnitBody body

/-- Adds the bodies of all nonterminals after the removal. -/
def addUnitFree (g : Grammar) (d : Definition) : Definition :=
  let reach := g.unitReach
  g.nonterminals.keys.foldl (fun d n => d.ensureRules n (g.unitFreeBodies reach n)) d

/-- The grammar without unit rules. -/
def withoutUnitRules (g : Grammar) : Grammar := g.rebuild g.addUnitFree

/-- The grammar without unit rules, if there are enough numbers. -/
def withoutUnitRules? (g : Grammar) : Option Grammar := g.rebuild? g.addUnitFree

end Grammar

end GrammarAnalysis

import GrammarAnalysis.Proofs.Iteration.Stages
import GrammarAnalysis.Proofs.Lookahead.Starts

/-!
# Ranks of vanishing and of starting

Symbols vanish, and they bring a terminal to the front, through nested rules.
The nesting never needs to be deeper than the number of nonterminals, because a
deeper nesting uses some nonterminal inside itself.  A vanishing form is the
form of a forest without leaves, whose number of rules is limited by its depth.
-/

namespace GrammarAnalysis.Grammar

variable {g : Grammar}

/-! ## Vanishing -/

/-- Vanishing through rules that are nested at most `depth` deep. -/
inductive VanishesIn (g : Grammar) : Nat → List Symbol → Prop
  | nil (depth : Nat) : VanishesIn g depth []
  | cons {depth : Nat} {id : RuleId} {rule : Rule} {rest : List Symbol}
      (known : g.rules.get? id = some rule) (inside : VanishesIn g depth rule.body)
      (behind : VanishesIn g (depth + 1) rest) :
      VanishesIn g (depth + 1) (.nonterminal rule.head :: rest)

theorem VanishesIn.succ {depth : Nat} {α : List Symbol} (h : g.VanishesIn depth α) :
    g.VanishesIn (depth + 1) α := by
  induction h with
  | nil => exact .nil _
  | cons known _ _ ihInside ihBehind => exact .cons known ihInside ihBehind

theorem VanishesIn.mono {depth deeper : Nat} (hle : depth ≤ deeper) {α : List Symbol}
    (h : g.VanishesIn depth α) : g.VanishesIn deeper α := by
  induction hle with
  | refl => exact h
  | step _ ih => exact ih.succ

theorem vanishesIn_cons_iff {depth : Nat} {s : Symbol} {rest : List Symbol} :
    g.VanishesIn depth (s :: rest) ↔ g.VanishesIn depth [s] ∧ g.VanishesIn depth rest := by
  constructor
  · intro h
    cases h with
    | cons known inside behind => exact ⟨.cons known inside (.nil _), behind⟩
  · rintro ⟨h, hrest⟩
    cases h with
    | cons known inside _ => exact .cons known inside hrest

theorem vanishesIn_iff_forall {depth : Nat} {α : List Symbol} :
    g.VanishesIn depth α ↔ ∀ s ∈ α, g.VanishesIn depth [s] := by
  induction α with
  | nil => exact ⟨fun _ _ hs => absurd hs List.not_mem_nil, fun _ => .nil _⟩
  | cons s rest ih => rw [vanishesIn_cons_iff, ih, List.forall_mem_cons]

theorem VanishesIn.vanishes {depth : Nat} {α : List Symbol} (h : g.VanishesIn depth α) :
    g.Vanishes α := by
  induction h with
  | nil => exact .nil
  | cons known _ _ ihInside ihBehind => exact .cons known ihInside ihBehind

theorem Vanishes.exists_depth {α : List Symbol} (h : g.Vanishes α) :
    ∃ depth, g.VanishesIn depth α := by
  induction h with
  | nil => exact ⟨0, .nil 0⟩
  | cons known _ _ ihInside ihBehind =>
      obtain ⟨depth, hinside⟩ := ihInside
      obtain ⟨depth', hbehind⟩ := ihBehind
      refine ⟨max depth depth' + 1, .cons known (hinside.mono (by omega)) ?_⟩
      exact hbehind.mono (by omega)

/-- A predicate on declared nonterminals holds of no more of them than there are. -/
theorem atMost_declared {P : NonterminalId → Prop}
    (h : ∀ n, P n → n ∈ g.nonterminals.keys) : AtMost g.nonterminals.size P := by
  apply atMost_of_mem h
  rw [OrderedMap.length_keys]

/-- Vanishing needs no deeper nesting than there are nonterminals. -/
theorem Vanishes.vanishesIn (hg : g.IsClosed) {α : List Symbol} (h : g.Vanishes α) :
    g.VanishesIn g.nonterminals.size α := by
  obtain ⟨depth, hα⟩ := h.exists_depth
  refine vanishesIn_iff_forall.mpr fun s hs => ?_
  have hin := vanishesIn_iff_forall.mp hα s hs
  cases s with
  | terminal t => exact absurd hin.vanishes not_vanishes_terminal
  | nonterminal n =>
      refine stage_bound (fun depth n => g.VanishesIn depth [.nonterminal n])
        (fun _ _ h => h.succ) ?_ ?_ hin
      · intro depth hstop n hn
        cases hn with
        | cons known inside _ =>
            refine .cons known (vanishesIn_iff_forall.mpr fun s hs => ?_) (.nil _)
            have hs' := vanishesIn_iff_forall.mp inside s hs
            cases s with
            | terminal t => exact absurd hs'.vanishes not_vanishes_terminal
            | nonterminal m => exact hstop m hs'
      · refine atMost_declared ?_
        rintro n ⟨depth, hn⟩
        cases hn with
        | cons known _ _ => exact hg.head_declared known

/-! ## Starting -/

/-- Starting with a terminal through rules that are nested at most `depth` deep. -/
inductive StartsWithIn (g : Grammar) (t : TerminalId) : Nat → List Symbol → Prop
  | here (depth : Nat) (rest : List Symbol) : StartsWithIn g t depth (.terminal t :: rest)
  | inside {depth : Nat} {id : RuleId} {rule : Rule} (known : g.rules.get? id = some rule)
      (starts : StartsWithIn g t depth rule.body) (rest : List Symbol) :
      StartsWithIn g t (depth + 1) (.nonterminal rule.head :: rest)
  | behind {depth : Nat} {s : Symbol} {rest : List Symbol} (vanishes : g.Vanishes [s])
      (starts : StartsWithIn g t depth rest) : StartsWithIn g t depth (s :: rest)

variable {t : TerminalId}

theorem StartsWithIn.succ {depth : Nat} {α : List Symbol} (h : g.StartsWithIn t depth α) :
    g.StartsWithIn t (depth + 1) α := by
  induction h with
  | here depth rest => exact .here _ _
  | inside known _ rest ih => exact .inside known ih rest
  | behind vanishes _ ih => exact .behind vanishes ih

theorem StartsWithIn.startsWith {depth : Nat} {α : List Symbol}
    (h : g.StartsWithIn t depth α) : g.StartsWith t α := by
  induction h with
  | here _ rest => exact .here rest
  | inside known _ rest ih => exact .inside known ih rest
  | behind vanishes _ ih => exact .behind vanishes ih

theorem StartsWith.exists_depth {α : List Symbol} (h : g.StartsWith t α) :
    ∃ depth, g.StartsWithIn t depth α := by
  induction h with
  | here rest => exact ⟨0, .here 0 rest⟩
  | inside known _ rest ih =>
      obtain ⟨depth, hbody⟩ := ih
      exact ⟨depth + 1, .inside known hbody rest⟩
  | behind vanishes _ ih =>
      obtain ⟨depth, hrest⟩ := ih
      exact ⟨depth, .behind vanishes hrest⟩

theorem StartsWithIn.append_right {depth : Nat} {α : List Symbol}
    (h : g.StartsWithIn t depth α) (rest : List Symbol) : g.StartsWithIn t depth (α ++ rest) := by
  induction h with
  | here _ rest' => exact .here _ _
  | inside known starts rest' _ => exact .inside known starts _
  | behind vanishes _ ih => exact .behind vanishes ih

/-- If the nonterminals start at one depth already where they start at another,
so do all lists of symbols. -/
theorem StartsWithIn.of_nonterminals {depth depth' : Nat}
    (h : ∀ n, g.StartsWithIn t depth [.nonterminal n] → g.StartsWithIn t depth' [.nonterminal n])
    {α : List Symbol} (hα : g.StartsWithIn t depth α) : g.StartsWithIn t depth' α := by
  induction hα with
  | here _ rest => exact .here _ rest
  | inside known starts rest _ =>
      have hhead := h _ (.inside known starts [])
      exact hhead.append_right rest
  | behind vanishes _ ih => exact .behind vanishes (ih h)

/-- Starting needs no deeper nesting than there are nonterminals. -/
theorem StartsWith.startsWithIn (hg : g.IsClosed) {α : List Symbol} (h : g.StartsWith t α) :
    g.StartsWithIn t g.nonterminals.size α := by
  obtain ⟨depth, hα⟩ := h.exists_depth
  refine hα.of_nonterminals fun n hn => ?_
  refine stage_bound (fun depth n => g.StartsWithIn t depth [.nonterminal n])
    (fun _ _ h => h.succ) ?_ ?_ hn
  · intro depth hstop n hn
    cases hn with
    | inside known starts _ => exact .inside known (starts.of_nonterminals hstop) []
    | behind _ starts => cases starts
  · refine atMost_declared ?_
    rintro n ⟨depth, hn⟩
    cases hn with
    | inside known _ _ => exact hg.head_declared known
    | behind _ starts => cases starts

end GrammarAnalysis.Grammar

import Mathlib.Tactic.Ring
import GrammarAnalysis.Proofs.Derivation.Runs
import GrammarAnalysis.Proofs.Lookahead.Ranks
import GrammarAnalysis.Proofs.Predictive.Reading

/-!
# The predictive parser always stops

In a table without a conflict a nonterminal on top of the stack either stops the
parser, or vanishes, or starts with the next token.  Since the rule of a cell is
the only one, the parser then follows the nesting of rules by which it vanishes
or starts, and this is no deeper than there are nonterminals.  So between two
matches it takes a number of steps that depends on the height of the stack only.

* `PredictiveTable.stopsWithin` bounds the steps by the input and the stack.
* `PredictiveTable.exists_parse_eq_some`: the parser answers every word.
-/

namespace GrammarAnalysis

namespace Grammar

/-! ## Limits -/

/-- A number of steps in which a symbol vanishes through rules that are nested at
most `depth` deep, by the length of the longest body. -/
def eraseSteps (longest : Nat) : Nat → Nat
  | 0 => 0
  | depth + 1 => 1 + longest * eraseSteps longest depth

/-- A number of steps in which any symbol vanishes, if it does. -/
def eraseCost (g : Grammar) : Nat := eraseSteps g.longestBody g.nonterminals.size

/-- A number of steps in which a part of a body matches a token, through rules that
are nested at most `depth` deep. -/
def startSteps (g : Grammar) (depth length : Nat) : Nat :=
  1 + depth * (1 + g.longestBody * g.eraseCost) + length * g.eraseCost

/-- A number of symbols by which the stack does not grow between two matches. -/
def stackGrowth (g : Grammar) : Nat := g.nonterminals.size * g.longestBody + g.longestBody

/-- A number of steps in which the parser stops, by the length of the input and
the height of the stack. -/
def stopSteps (g : Grammar) : Nat → Nat → Nat
  | 0, height => 1 + height * g.eraseCost
  | length + 1, height =>
    1 + height * g.eraseCost + (1 + g.startSteps g.nonterminals.size g.longestBody) +
      stopSteps g length (height + g.stackGrowth)

theorem startSteps_mono (g : Grammar) (depth : Nat) {length longer : Nat} (h : length ≤ longer) :
    g.startSteps depth length ≤ g.startSteps depth longer :=
  Nat.add_le_add_left (Nat.mul_le_mul_right _ h) _

theorem stopSteps_mono (g : Grammar) (length : Nat) {height higher : Nat} (h : height ≤ higher) :
    g.stopSteps length height ≤ g.stopSteps length higher := by
  have herase := Nat.mul_le_mul_right g.eraseCost h
  induction length generalizing height higher with
  | zero => exact Nat.add_le_add_left herase 1
  | succ length ih =>
      have hgrown : height + g.stackGrowth ≤ higher + g.stackGrowth := Nat.add_le_add_right h _
      have hlater := ih hgrown (Nat.mul_le_mul_right _ hgrown)
      rw [stopSteps, stopSteps]
      omega

theorem length_body_le_longestBody {g : Grammar} {id : RuleId} {rule : Rule}
    (hrule : g.rules.get? id = some rule) : rule.body.length ≤ g.longestBody := by
  have hfold : ∀ (rules : List Rule) (longest : Nat),
      longest ≤ rules.foldl (fun longest rule => max longest rule.body.length) longest ∧
        ∀ rule ∈ rules, rule.body.length ≤
          rules.foldl (fun longest rule => max longest rule.body.length) longest := by
    intro rules
    induction rules with
    | nil => simp
    | cons first rules ih =>
        intro longest
        obtain ⟨hlongest, hrules⟩ := ih (max longest first.body.length)
        rw [List.foldl_cons]
        refine ⟨(Nat.le_max_left _ _).trans hlongest, fun rule hmem => ?_⟩
        rcases List.mem_cons.mp hmem with rfl | hmem
        · exact (Nat.le_max_right _ _).trans hlongest
        · exact hrules rule hmem
  exact (hfold g.rules.values 0).2 rule (OrderedMap.mem_values_of_get? hrule)

theorem IsPlain.not_startsWith_endOfInput {g : Grammar} (hg : g.IsPlain) {form : List Symbol}
    (hform : .terminal endOfInput ∉ form) : ¬ g.StartsWith endOfInput form := by
  intro h
  induction h with
  | here rest => exact hform List.mem_cons_self
  | inside known _ _ ih => exact ih (hg.endOfInput_unused _ (OrderedMap.mem_values_of_get? known))
  | behind _ _ ih => exact ih fun hmem => hform (List.mem_cons_of_mem _ hmem)

end Grammar

namespace PredictiveTable

variable {g : Grammar}

/-! ## Vanishing symbols -/

/-- The parser removes symbols that vanish, if the next token can follow them. -/
theorem erases (hg : g.IsPlain) (hll1 : (ofGrammar g).isLL1 = true) {depth : Nat}
    {form : List Symbol} (hvanish : g.VanishesIn depth form) {input : List TerminalId}
    (hfollows : ∀ n, .nonterminal n ∈ form → g.Follows n (lookahead input))
    (stack : List Symbol) (applied : List RuleId) :
    ∃ applied', ReachesWithin (ofGrammar g).step
      (form.length * Grammar.eraseSteps g.longestBody depth)
      ⟨form ++ stack, input, applied⟩ ⟨stack, input, applied'⟩ := by
  induction hvanish generalizing stack applied with
  | nil depth => exact ⟨applied, .refl _ _⟩
  | @cons depth id rule rest known inside behind ihInside ihBehind =>
      have hhead : g.Follows rule.head (lookahead input) := hfollows _ List.mem_cons_self
      have hbody : ∀ n, .nonterminal n ∈ rule.body → g.Follows n (lookahead input) := by
        intro n hn
        obtain ⟨before, after, hsplit⟩ := List.append_of_mem hn
        have hvanish := inside.vanishes
        rw [hsplit, Grammar.vanishes_append_iff, Grammar.vanishes_cons_iff] at hvanish
        exact .inherited known hsplit hvanish.2.2 hhead
      have hrest : ∀ n, .nonterminal n ∈ rest → g.Follows n (lookahead input) :=
        fun n hn => hfollows n (List.mem_cons_of_mem _ hn)
      -- the rule of the cell is this one, as no other rule is predicted on the token
      obtain ⟨applied₁, hinside⟩ := ihInside hbody (rest ++ stack) (id :: applied)
      obtain ⟨applied₂, hbehind⟩ := ihBehind hrest stack applied₁
      have hstep := step_expand hg hll1 known (Or.inr ⟨inside.vanishes, hhead⟩)
        (rest ++ stack) applied
      refine ⟨applied₂, (ReachesWithin.next hstep (hinside.trans hbehind)).mono ?_⟩
      have hlength := Nat.mul_le_mul_right (Grammar.eraseSteps g.longestBody depth)
        (Grammar.length_body_le_longestBody known)
      have herase : Grammar.eraseSteps g.longestBody (depth + 1) =
          1 + g.longestBody * Grammar.eraseSteps g.longestBody depth := rfl
      rw [List.length_cons, Nat.succ_mul]
      omega

/-- The parser removes a nonterminal that vanishes, if the next token can follow it. -/
theorem erases_nonterminal (hg : g.IsPlain) (hll1 : (ofGrammar g).isLL1 = true)
    {n : NonterminalId} (hvanish : g.Vanishes [.nonterminal n]) {input : List TerminalId}
    (hfollows : g.Follows n (lookahead input)) (stack : List Symbol) (applied : List RuleId) :
    ∃ applied', ReachesWithin (ofGrammar g).step g.eraseCost
      ⟨.nonterminal n :: stack, input, applied⟩ ⟨stack, input, applied'⟩ := by
  have hform : ∀ m, .nonterminal m ∈ [Symbol.nonterminal n] → g.Follows m (lookahead input) := by
    intro m hm
    obtain rfl : m = n := by simpa using hm
    exact hfollows
  have herases := erases hg hll1 (hvanish.vanishesIn hg.isClosed) hform stack applied
  rwa [List.length_singleton, Nat.one_mul] at herases

/-! ## Starting symbols -/

/-- The parser matches the next token with a part of a body that starts with it. -/
theorem matches_start (hg : g.IsPlain) (hll1 : (ofGrammar g).isLL1 = true) {depth : Nat}
    {t : TerminalId} {form : List Symbol} (hstarts : g.StartsWithIn t depth form) {id : RuleId}
    {rule : Rule} {before : List Symbol} (hrule : g.rules.get? id = some rule)
    (hsplit : rule.body = before ++ form) (stack : List Symbol) (input : List TerminalId)
    (applied : List RuleId) :
    ∃ below applied', below.length ≤ depth * g.longestBody + form.length ∧
      ReachesWithin (ofGrammar g).step (g.startSteps depth form.length)
        ⟨form ++ stack, t :: input, applied⟩ ⟨below ++ stack, input, applied'⟩ := by
  induction hstarts generalizing id rule before stack applied with
  | here depth rest =>
      have hne : t ≠ endOfInput := by
        rintro rfl
        have hunused := hg.endOfInput_unused rule (OrderedMap.mem_values_of_get? hrule)
        exact hunused (by simp [hsplit])
      have hstep := step_match hne (ofGrammar g) (rest ++ stack) input applied
      refine ⟨rest, applied, by rw [List.length_cons]; omega, ?_⟩
      refine (ReachesWithin.next hstep (.refl 0 _)).mono ?_
      rw [Grammar.startSteps]
      omega
  | @inside depth id' rule' known starts rest ih =>
      obtain ⟨below, applied', hbelow, hreach⟩ :=
        ih known (List.nil_append _).symm (rest ++ stack) (id' :: applied)
      have hpredicts : g.Predicts rule' (lookahead (t :: input)) := Or.inl starts.startsWith
      have hstep := step_expand hg hll1 known hpredicts (rest ++ stack) applied
      have hlength := Grammar.length_body_le_longestBody known
      refine ⟨below ++ rest, applied', ?_, ?_⟩
      · rw [List.length_append, List.length_cons, Nat.succ_mul]
        omega
      · have hmul := Nat.mul_le_mul_right g.eraseCost hlength
        rw [List.append_assoc]
        refine (ReachesWithin.next hstep hreach).mono ?_
        rw [Grammar.startSteps, Grammar.startSteps, Nat.succ_mul]
        omega
  | @behind depth s rest vanishes starts ih =>
      cases s with
      | terminal u => exact absurd vanishes Grammar.not_vanishes_terminal
      | nonterminal n =>
          have hfollows : g.Follows n (lookahead (t :: input)) :=
            .starts hrule hsplit starts.startsWith
          obtain ⟨applied₁, herases⟩ :=
            erases_nonterminal hg hll1 vanishes hfollows (rest ++ stack) applied
          have hsplit' : rule.body = (before ++ [.nonterminal n]) ++ rest := by
            rw [hsplit, List.append_assoc, List.singleton_append]
          obtain ⟨below, applied', hbelow, hreach⟩ := ih hrule hsplit' stack applied₁
          refine ⟨below, applied', hbelow.trans ?_, (herases.trans hreach).mono ?_⟩
          · rw [List.length_cons]
            omega
          · rw [Grammar.startSteps, Grammar.startSteps, List.length_cons, Nat.succ_mul]
            omega

/-! ## Whole runs -/

/-- The symbol on top of the stack is removed, or it matches the next token, unless
the parser stops. -/
theorem removes_or_matches (hg : g.IsPlain) (hll1 : (ofGrammar g).isLL1 = true) {s : Symbol}
    {below : List Symbol} {input : List TerminalId} {applied : List RuleId}
    {next : PredictiveState} (hstep : (ofGrammar g).step ⟨s :: below, input, applied⟩ = .next next) :
    (∃ applied', ReachesWithin (ofGrammar g).step g.eraseCost
      ⟨s :: below, input, applied⟩ ⟨below, input, applied'⟩) ∨
    ∃ t rest front applied', input = t :: rest ∧ front.length ≤ g.stackGrowth ∧
      ReachesWithin (ofGrammar g).step (1 + g.startSteps g.nonterminals.size g.longestBody)
        ⟨s :: below, input, applied⟩ ⟨front ++ below, rest, applied'⟩ := by
  rcases step_eq_next hg hstep with
    ⟨t, stack, rest, -, hstack, rfl, rfl⟩ | ⟨id, rule, stack, hrule, hpredicts, hstack, rfl⟩
  · obtain ⟨rfl, rfl⟩ := List.cons.inj hstack
    refine Or.inr ⟨t, rest, [], applied, rfl, Nat.zero_le _, ?_⟩
    exact (ReachesWithin.next hstep (.refl 0 _)).mono (Nat.le_add_right _ _)
  · obtain ⟨rfl, rfl⟩ := List.cons.inj hstack
    rcases hpredicts with hstarts | ⟨hvanish, hfollows⟩
    · right
      cases input with
      | nil =>
          have hunused := hg.endOfInput_unused rule (OrderedMap.mem_values_of_get? hrule)
          exact absurd hstarts (hg.not_startsWith_endOfInput hunused)
      | cons t rest =>
          obtain ⟨front, applied', hfront, hreach⟩ :=
            matches_start hg hll1 (hstarts.startsWithIn hg.isClosed) hrule
              (List.nil_append _).symm below rest (id :: applied)
          have hlength := Grammar.length_body_le_longestBody hrule
          refine ⟨t, rest, front, applied', rfl, ?_, ?_⟩
          · rw [Grammar.stackGrowth]
            omega
          · refine (ReachesWithin.next hstep hreach).mono ?_
            rw [Nat.add_comm]
            exact Nat.add_le_add_left (g.startSteps_mono _ hlength) 1
    · exact Or.inl (erases_nonterminal hg hll1 (.cons hrule hvanish .nil) hfollows below applied)

/-- The parser stops, whatever is on the stack. -/
theorem stopsWithin (hg : g.IsPlain) (hll1 : (ofGrammar g).isLL1 = true)
    (input : List TerminalId) (stack : List Symbol) (applied : List RuleId) :
    StopsWithin (ofGrammar g).step (g.stopSteps input.length stack.length)
      ⟨stack, input, applied⟩ := by
  induction input generalizing stack applied with
  | nil =>
      induction stack generalizing applied with
      | nil =>
          have hstop : (ofGrammar g).step ⟨[], [], applied⟩ =
              .stop (.derived ⟨.leftmost, applied.reverse⟩) := by simp [step]
          exact (StopsWithin.of_stop hstop 0).mono (Nat.le_add_right _ _)
      | cons s below ih =>
          cases hstep : (ofGrammar g).step ⟨s :: below, [], applied⟩ with
          | stop outcome => exact (StopsWithin.of_stop hstep 0).mono (Nat.le_add_right _ _)
          | next next =>
              rcases removes_or_matches hg hll1 hstep with
                ⟨applied', hreach⟩ | ⟨t, rest, front, applied', hinput, -⟩
              · refine (hreach.stopsWithin (ih applied')).mono ?_
                simp only [Grammar.stopSteps, List.length_cons, List.length_nil, Nat.succ_mul]
                omega
              · simp at hinput
  | cons t input ihInput =>
      -- the input stays the same as long as symbols are removed from the stack
      induction stack generalizing applied with
      | nil =>
          have hstop : (ofGrammar g).step ⟨[], t :: input, applied⟩ = .stop .notRecognized := by
            simp [step]
          refine (StopsWithin.of_stop hstop 0).mono ?_
          rw [List.length_cons, Grammar.stopSteps]
          omega
      | cons s below ihBelow =>
          cases hstep : (ofGrammar g).step ⟨s :: below, t :: input, applied⟩ with
          | stop outcome =>
              refine (StopsWithin.of_stop hstep 0).mono ?_
              rw [List.length_cons, Grammar.stopSteps]
              omega
          | next next =>
              rcases removes_or_matches hg hll1 hstep with
                ⟨applied', hreach⟩ | ⟨u, rest, front, applied', hinput, hfront, hreach⟩
              · refine (hreach.stopsWithin (ihBelow applied')).mono ?_
                have hmono := g.stopSteps_mono input.length
                  (Nat.add_le_add_right (Nat.le_add_right below.length 1) g.stackGrowth)
                simp only [Grammar.stopSteps, List.length_cons, Nat.succ_mul]
                omega
              · obtain ⟨rfl, rfl⟩ := List.cons.inj hinput
                refine (hreach.stopsWithin (ihInput (front ++ below) applied')).mono ?_
                have hheight : (front ++ below).length ≤ below.length + 1 + g.stackGrowth := by
                  rw [List.length_append]
                  omega
                have hmono := g.stopSteps_mono input.length hheight
                simp only [Grammar.stopSteps, List.length_cons]
                omega

/-! ## The bound of the parser -/

theorem eraseSteps_le (longest depth : Nat) :
    Grammar.eraseSteps longest depth ≤ (longest + 1) ^ depth := by
  induction depth with
  | zero => exact Nat.zero_le _
  | succ depth ih =>
      have hone : 1 ≤ (longest + 1) ^ depth := Nat.one_le_pow _ _ (Nat.succ_pos _)
      have hmul := Nat.mul_le_mul_left longest ih
      rw [Grammar.eraseSteps, Nat.pow_succ, Nat.mul_succ, Nat.mul_comm _ longest]
      omega

theorem stopSteps_le (g : Grammar) (length height : Nat) :
    g.stopSteps length height ≤ (length + 1) *
      (2 + g.startSteps g.nonterminals.size g.longestBody +
        (height + length * g.stackGrowth) * g.eraseCost) := by
  induction length generalizing height with
  | zero =>
      rw [Grammar.stopSteps]
      simp
      omega
  | succ length ih =>
      have hlater := ih (height + g.stackGrowth)
      have hheight : height + g.stackGrowth + length * g.stackGrowth =
          height + (length + 1) * g.stackGrowth := by
        rw [Nat.succ_mul]
        omega
      have hhere : height * g.eraseCost ≤ (height + (length + 1) * g.stackGrowth) * g.eraseCost :=
        Nat.mul_le_mul_right _ (Nat.le_add_right _ _)
      rw [hheight] at hlater
      rw [Grammar.stopSteps, Nat.succ_mul (length + 1)]
      omega

theorem phaseSteps_le (length size longest : Nat) {erase power : Nat} (hone : 1 ≤ power)
    (herase : erase ≤ power) :
    2 + (1 + size * (1 + longest * erase) + longest * erase) +
        (1 + length * (size * longest + longest)) * erase ≤
      (size + 1) * (power * ((length + 2) * (longest + 2) ^ 3)) := by
  have hbody : longest * erase ≤ longest * power := Nat.mul_le_mul_left _ herase
  have hnested : size * (1 + longest * erase) ≤ size * (power + longest * power) :=
    Nat.mul_le_mul_left _ (Nat.add_le_add hone hbody)
  have hstack : (1 + length * (size * longest + longest)) * erase ≤
      (1 + length * (size * longest + longest)) * power := Nat.mul_le_mul_left _ herase
  have hcube : 6 + longest + length * longest ≤ (length + 2) * (longest + 2) ^ 3 := by
    calc
      6 + longest + length * longest
          ≤ 6 + longest + length * longest + (2 * longest ^ 3 + 12 * longest ^ 2 + 23 * longest +
              10 + length * (longest ^ 3 + 6 * longest ^ 2 + 11 * longest + 8)) :=
        Nat.le_add_right _ _
      _ = (length + 2) * (longest + 2) ^ 3 := by ring
  calc
    2 + (1 + size * (1 + longest * erase) + longest * erase) +
          (1 + length * (size * longest + longest)) * erase
        ≤ 2 * power + (power + size * (power + longest * power) + longest * power) +
            (1 + length * (size * longest + longest)) * power := by omega
    _ ≤ 2 * power + (power + size * (power + longest * power) + longest * power) +
          (1 + length * (size * longest + longest)) * power + (5 * (size * power) + 2 * power) :=
      Nat.le_add_right _ _
    _ = (size + 1) * (power * (6 + longest + length * longest)) := by ring
    _ ≤ (size + 1) * (power * ((length + 2) * (longest + 2) ^ 3)) :=
      Nat.mul_le_mul_left _ (Nat.mul_le_mul_left _ hcube)

/-- The steps in which the parser stops are no more than its bound. -/
theorem stopSteps_le_stepBound (word : List TerminalId) :
    g.stopSteps word.length 1 ≤ (ofGrammar g).stepBound word := by
  have hone : 1 ≤ (g.longestBody + 2) ^ g.nonterminals.size := Nat.one_le_pow _ _ (by omega)
  have herase : g.eraseCost ≤ (g.longestBody + 2) ^ g.nonterminals.size :=
    (eraseSteps_le _ _).trans (Nat.pow_le_pow_left (by omega) _)
  have hphase := phaseSteps_le word.length g.nonterminals.size g.longestBody hone herase
  calc
    g.stopSteps word.length 1
        ≤ (word.length + 1) * (2 + g.startSteps g.nonterminals.size g.longestBody +
            (1 + word.length * g.stackGrowth) * g.eraseCost) := stopSteps_le g word.length 1
    _ ≤ (word.length + 2) * ((g.nonterminals.size + 1) *
          ((g.longestBody + 2) ^ g.nonterminals.size *
            ((word.length + 2) * (g.longestBody + 2) ^ 3))) :=
      Nat.mul_le_mul (by omega) hphase
    _ = (word.length + 2) * (word.length + 2) * (g.nonterminals.size + 1) *
          (g.longestBody + 2) ^ (g.nonterminals.size + 3) := by ring
    _ ≤ (word.length + 2) * (word.length + 2) * (g.nonterminals.size + g.rules.size + 1) *
          (g.longestBody + 2) ^ (g.nonterminals.size + g.rules.size + 3) := by
      apply Nat.mul_le_mul
      · exact Nat.mul_le_mul_left _ (by omega)
      · exact Nat.pow_le_pow_right (by omega) (by omega)

/-- The parser answers every word. -/
theorem exists_parse_eq_some (hg : g.IsPlain) (hll1 : (ofGrammar g).isLL1 = true)
    (word : List TerminalId) : ∃ outcome, (ofGrammar g).parse word = some outcome :=
  (stopsWithin hg hll1 word [.nonterminal g.start] []).mono (stopSteps_le_stepBound word)

end PredictiveTable

end GrammarAnalysis

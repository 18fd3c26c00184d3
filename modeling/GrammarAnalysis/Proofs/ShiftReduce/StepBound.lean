import Mathlib.Data.List.Perm.Subperm
import GrammarAnalysis.Proofs.Iteration.Exploration
import GrammarAnalysis.Proofs.ShiftReduce.Reading

/-!
# The bound on the steps of the parser

Between two shifts the parser reduces on the same lookahead.  What it pushes in
this time has no state twice: a state that is pushed above itself, without
anything below being popped in between, is pushed again and again.  So only
finitely many stacks come up between two shifts, and none of them comes up twice
if the parser stops.

* `ParseTable.IsBounded.run_eq_some` bounds the steps of a run that stops.
* `ParseTable.IsBounded.parse_eq_some_iff`: the bound of `parse` is large enough.
-/

namespace GrammarAnalysis

/-! ## Short lists -/

/-- The lists of at most `length` numbers below `size`. -/
def shortLists (size : Nat) : Nat → List (List Nat)
  | 0 => [[]]
  | length + 1 => [] :: (List.range size).flatMap fun n => (shortLists size length).map (n :: ·)

theorem mem_shortLists {size length : Nat} {ns : List Nat} (hlength : ns.length ≤ length)
    (hlt : ∀ n ∈ ns, n < size) : ns ∈ shortLists size length := by
  induction length generalizing ns with
  | zero =>
      rw [List.eq_nil_of_length_eq_zero (Nat.le_zero.mp hlength)]
      exact List.mem_singleton.mpr rfl
  | succ length ih =>
      cases ns with
      | nil => exact List.mem_cons_self
      | cons n ns =>
          have hrest := ih (Nat.le_of_succ_le_succ hlength)
            fun m hm => hlt m (List.mem_cons_of_mem _ hm)
          refine List.mem_cons_of_mem _ (List.mem_flatMap.mpr ⟨n, ?_, List.mem_map_of_mem hrest⟩)
          exact List.mem_range.mpr (hlt n List.mem_cons_self)

theorem length_shortLists_le (size length : Nat) :
    (shortLists size length).length ≤ (size + 1) ^ length := by
  induction length with
  | zero => exact Nat.le_refl _
  | succ length ih =>
      have hflat : ((List.range size).flatMap fun n =>
          (shortLists size length).map (n :: ·)).length = size * (shortLists size length).length := by
        simp [List.length_flatMap]
      have hpos : 1 ≤ (size + 1) ^ length := Nat.one_le_pow _ _ (Nat.succ_pos _)
      have hmul := Nat.mul_le_mul_left size ih
      rw [shortLists, List.length_cons, hflat, Nat.pow_succ, Nat.mul_add, Nat.mul_one,
        Nat.mul_comm _ size]
      omega

theorem nodup_of_no_repetition {ns : List Nat}
    (h : ∀ front n middle back, ns ≠ front ++ n :: (middle ++ n :: back)) : ns.Nodup := by
  induction ns with
  | nil => exact List.nodup_nil
  | cons n ns ih =>
      refine List.nodup_cons.mpr ⟨?_, ih fun front m middle back heq => ?_⟩
      · intro hmem
        obtain ⟨middle, back, rfl⟩ := List.append_of_mem hmem
        exact h [] n middle back rfl
      · exact h (n :: front) m middle back (by rw [heq, List.cons_append])

namespace ParseTable

variable {table : ParseTable}

/-! ## Reductions on one lookahead -/

/-- Whether the parser makes a reduction of one stack to the other on the lookahead. -/
inductive Reduces (table : ParseTable) (t : TerminalId) : List StateId → List StateId → Prop
  | intro {s next top : StateId} {id : RuleId} {rule : Rule} {popped : List StateId}
      (state : (popped ++ [top]).head? = some s) (action : table.action? s t = some (.reduce id))
      (known : table.grammar.rules.get? id = some rule)
      (length : popped.length = rule.body.length)
      (goto : table.goto? top rule.head = some next) (below : List StateId) :
      Reduces table t (popped ++ top :: below) (next :: top :: below)

theorem head?_popped {popped : List StateId} {top s : StateId} (below : List StateId)
    (h : (popped ++ [top]).head? = some s) : ∃ rest, popped ++ top :: below = s :: rest := by
  cases popped with
  | nil => exact ⟨below, by simpa using h⟩
  | cons q popped => exact ⟨popped ++ top :: below, by simpa using h⟩

theorem Reduces.step_eq {t : TerminalId} {stack next : List StateId}
    (h : table.Reduces t stack next) :
    ∃ id, ∀ input reduced, Grammar.firstTerminal input = t →
      table.step ⟨stack, input, reduced⟩ = .next ⟨next, input, id :: reduced⟩ := by
  cases h with
  | @intro s next top id rule popped state action known length goto below =>
      obtain ⟨rest, hrest⟩ := head?_popped below state
      refine ⟨id, fun input reduced hinput => ?_⟩
      have hdrop : (s :: rest).drop rule.body.length = top :: below := by
        rw [← hrest, ← length, List.drop_left]
      rw [← hinput, Grammar.firstTerminal] at action
      simp [ParseTable.step, hrest, action, known, reduceBy, hdrop, goto]

theorem step_eq_shift {s next : StateId} {input : List TerminalId}
    (action : table.action? s (Grammar.firstTerminal input) = some (.shift next))
    (below : List StateId) (reduced : List RuleId) :
    table.step ⟨s :: below, input, reduced⟩ = .next ⟨next :: s :: below, input.tail, reduced⟩ := by
  rw [Grammar.firstTerminal] at action
  simp [ParseTable.step, action]

theorem exists_popped_of_drop {s top : StateId} {below rest : List StateId} {k : Nat}
    (h : (s :: below).drop k = top :: rest) :
    ∃ popped, s :: below = popped ++ top :: rest ∧ popped.length = k ∧
      (popped ++ [top]).head? = some s := by
  have hsplit : s :: below = (s :: below).take k ++ top :: rest := by
    rw [← h, List.take_append_drop]
  refine ⟨(s :: below).take k, hsplit, ?_, ?_⟩
  · have hpos : 0 < ((s :: below).drop k).length := by
      rw [h]
      exact Nat.succ_pos _
    rw [List.length_drop] at hpos
    rw [List.length_take]
    omega
  · cases hpopped : (s :: below).take k with
    | nil =>
        rw [hpopped, List.nil_append] at hsplit
        rw [(List.cons.inj hsplit).1]
        rfl
    | cons q popped =>
        rw [hpopped, List.cons_append] at hsplit
        rw [(List.cons.inj hsplit).1]
        rfl

/-- A step that goes on is a reduction or a shift. -/
theorem step_eq_next {stack : List StateId} {input : List TerminalId} {reduced : List RuleId}
    {state : ShiftReduceState} (h : table.step ⟨stack, input, reduced⟩ = .next state) :
    (table.Reduces (Grammar.firstTerminal input) stack state.stack ∧ state.input = input) ∨
      ∃ s below next, stack = s :: below ∧
        table.action? s (Grammar.firstTerminal input) = some (.shift next) ∧
        state = ⟨next :: stack, input.tail, reduced⟩ := by
  cases stack with
  | nil => simp [ParseTable.step] at h
  | cons s below =>
      rw [ParseTable.step] at h
      dsimp only at h
      rw [Grammar.firstTerminal]
      cases haction : table.action? s (input.head?.getD endOfInput) with
      | none => simp [haction] at h
      | some action =>
          cases action with
          | accept => simp [haction] at h
          | shift next =>
              right
              refine ⟨s, below, next, rfl, haction, ?_⟩
              simpa [haction, eq_comm] using h
          | reduce id =>
              left
              simp only [haction] at h
              cases hrule : table.grammar.rules.get? id with
              | none => simp [hrule] at h
              | some rule =>
                  simp only [hrule, reduceBy] at h
                  cases hdrop : (s :: below).drop rule.body.length with
                  | nil => simp [hdrop] at h
                  | cons top rest =>
                      simp only [hdrop] at h
                      cases hgoto : table.goto? top rule.head with
                      | none => simp [hgoto] at h
                      | some next =>
                          simp only [hgoto, StepResult.next.injEq] at h
                          subst h
                          obtain ⟨popped, hstack, hlength, hhead⟩ := exists_popped_of_drop hdrop
                          rw [hstack]
                          exact ⟨.intro hhead haction hrule hlength hgoto rest, rfl⟩

/-- Whether the parser stops within `k` steps from the stack and the input. -/
def StopsIn (table : ParseTable) (k : Nat) (stack : List StateId) (input : List TerminalId) :
    Prop :=
  ∃ reduced outcome, runSteps table.step k ⟨stack, input, reduced⟩ = some outcome

theorem StopsIn.reduces {k : Nat} {stack next : List StateId} {input : List TerminalId}
    (h : table.StopsIn k stack input)
    (hreduces : table.Reduces (Grammar.firstTerminal input) stack next) :
    ∃ k', k' < k ∧ table.StopsIn k' next input := by
  obtain ⟨reduced, outcome, hrun⟩ := h
  obtain ⟨id, hstep⟩ := hreduces.step_eq
  cases k with
  | zero => simp [runSteps] at hrun
  | succ k =>
      rw [runSteps, hstep input reduced rfl] at hrun
      exact ⟨k, Nat.lt_succ_self k, id :: reduced, outcome, hrun⟩

theorem StopsIn.reflTransGen {k : Nat} {stack next : List StateId} {input : List TerminalId}
    (h : table.StopsIn k stack input)
    (hreach : Relation.ReflTransGen (table.Reduces (Grammar.firstTerminal input)) stack next) :
    ∃ k', k' ≤ k ∧ table.StopsIn k' next input := by
  induction hreach with
  | refl => exact ⟨k, Nat.le_refl k, h⟩
  | tail _ hreduces ih =>
      obtain ⟨k', hk', hstops⟩ := ih
      obtain ⟨k'', hk'', hstops'⟩ := hstops.reduces hreduces
      exact ⟨k'', by omega, hstops'⟩

theorem StopsIn.transGen {k : Nat} {stack next : List StateId} {input : List TerminalId}
    (h : table.StopsIn k stack input)
    (hreach : Relation.TransGen (table.Reduces (Grammar.firstTerminal input)) stack next) :
    ∃ k', k' < k ∧ table.StopsIn k' next input := by
  obtain ⟨middle, hreduces, hrest⟩ := Relation.TransGen.head'_iff.mp hreach
  obtain ⟨k', hk', hstops⟩ := h.reduces hreduces
  obtain ⟨k'', hk'', hstops'⟩ := hstops.reflTransGen hrest
  exact ⟨k'', by omega, hstops'⟩

/-- A parser that puts a state above itself, whatever is below, never stops. -/
theorem not_stopsIn_of_rises {q : StateId} {above : List StateId} {input : List TerminalId}
    (hrises : ∀ below, Relation.TransGen (table.Reduces (Grammar.firstTerminal input))
      (q :: below) (q :: above ++ q :: below)) (k : Nat) (below : List StateId) :
    ¬ table.StopsIn k (q :: below) input := by
  induction k using Nat.strongRecOn generalizing below with
  | ind k ih =>
      intro hstops
      obtain ⟨k', hk', hstops'⟩ := hstops.transGen (hrises below)
      exact ih k' hk' _ hstops'

/-- A parser that comes back to a stack never stops. -/
theorem not_stopsIn_of_returns {stack : List StateId} {input : List TerminalId}
    (hreturns : Relation.TransGen (table.Reduces (Grammar.firstTerminal input)) stack stack)
    (k : Nat) : ¬ table.StopsIn k stack input := by
  induction k using Nat.strongRecOn with
  | ind k ih =>
      intro hstops
      obtain ⟨k', hk', hstops'⟩ := hstops.transGen hreturns
      exact ih k' hk' hstops'

/-! ## Stacks between two shifts -/

/-- Whether gotos lead to states of the table, and the end of input is not shifted. -/
structure IsBounded (table : ParseTable) : Prop where
  goto_lt : ∀ {s n next}, table.goto? s n = some next → next < table.states.length
  not_shift : ∀ {s next}, table.action? s endOfInput ≠ some (.shift next)

/-- What has been pushed onto the rest of an earlier stack by reductions: states
of the table, each of which rises from the one below it. -/
structure Pushed (table : ParseTable) (t : TerminalId) (start : List StateId)
    (pushed rest : List StateId) : Prop where
  lt : ∀ q ∈ pushed, q < table.states.length
  rises : ∀ front middle q back, pushed = front ++ (middle ++ q :: back) → ∀ below,
    Relation.ReflTransGen (table.Reduces t) (q :: below) (middle ++ q :: below)
  reached : ∀ front q back, pushed = front ++ q :: back →
    Relation.ReflTransGen (table.Reduces t) start (q :: back ++ rest)

/-- A reduction that pops pushed states only. -/
theorem Pushed.push {t : TerminalId} {start popped kept below rest : List StateId}
    {s next top : StateId} {id : RuleId} {rule : Rule} (hb : table.IsBounded)
    (h : Pushed table t start (popped ++ kept) rest) (hkept : top :: below = kept ++ rest)
    (state : (popped ++ [top]).head? = some s) (action : table.action? s t = some (.reduce id))
    (known : table.grammar.rules.get? id = some rule)
    (length : popped.length = rule.body.length) (goto : table.goto? top rule.head = some next)
    (hreach : Relation.ReflTransGen (table.Reduces t) start (popped ++ top :: below)) :
    Pushed table t start (next :: kept) rest where
  lt := by
    intro q hq
    rcases List.mem_cons.mp hq with rfl | hq
    · exact hb.goto_lt goto
    · exact h.lt q (List.mem_append_right _ hq)
  rises := by
    intro front middle q back hsplit below'
    rcases List.cons_eq_append_iff.mp hsplit with ⟨-, hmiddle⟩ | ⟨front', -, hkept'⟩
    · rcases List.append_eq_cons_iff.mp hmiddle with ⟨rfl, -⟩ | ⟨middle', rfl, hkept'⟩
      · exact .refl
      · have hold := h.rises [] (popped ++ middle') q back (by simp [hkept']) below'
        -- The reduction sees the same state below the popped ones whatever is below `q`.
        obtain ⟨more, hmore⟩ : ∃ more, middle' ++ q :: below' = top :: more := by
          rw [hkept', List.append_assoc, List.cons_append] at hkept
          cases middle' with
          | nil => exact ⟨below', by rw [List.nil_append, (List.cons.inj hkept).1]⟩
          | cons r middle' =>
              exact ⟨middle' ++ q :: below', by rw [(List.cons.inj hkept).1]; rfl⟩
        rw [List.append_assoc, hmore] at hold
        rw [List.cons_append, hmore]
        exact hold.tail (.intro state action known length goto more)
    · exact h.rises (popped ++ front') middle q back (by simp [hkept']) below'
  reached := by
    intro front q back hsplit
    rcases List.cons_eq_append_iff.mp hsplit with ⟨-, hfront⟩ | ⟨front', -, hkept'⟩
    · obtain ⟨rfl, rfl⟩ := List.cons.inj hfront
      rw [List.cons_append, ← hkept]
      exact hreach.tail (.intro state action known length goto below)
    · exact h.reached (popped ++ front') q back (by rw [hkept', List.append_assoc])

/-- A single state that is pushed onto the rest. -/
theorem Pushed.single {t : TerminalId} {start rest : List StateId} {q : StateId}
    (hlt : q < table.states.length)
    (hreach : Relation.ReflTransGen (table.Reduces t) start (q :: rest)) :
    Pushed table t start [q] rest where
  lt := by
    intro r hr
    rw [List.mem_singleton.mp hr]
    exact hlt
  rises := by
    intro front middle r back hsplit below
    have hlength := congrArg List.length hsplit
    simp only [List.length_append, List.length_cons, List.length_nil] at hlength
    rw [List.eq_nil_of_length_eq_zero (l := middle) (by omega)]
    exact .refl
  reached := by
    intro front r back hsplit
    have hlength := congrArg List.length hsplit
    simp only [List.length_append, List.length_cons, List.length_nil] at hlength
    rw [List.eq_nil_of_length_eq_zero (l := front) (by omega), List.nil_append] at hsplit
    rw [← hsplit]
    exact hreach

/-- Every stack between two shifts is pushed onto a rest of the first one. -/
theorem exists_pushed {t : TerminalId} {start stack : List StateId} (hb : table.IsBounded)
    (hreach : Relation.ReflTransGen (table.Reduces t) start stack) :
    ∃ pushed k, stack = pushed ++ start.drop k ∧ k ≤ start.length ∧
      Pushed table t start pushed (start.drop k) := by
  induction hreach with
  | refl =>
      refine ⟨[], 0, rfl, Nat.zero_le _, ?_, ?_, ?_⟩
      · simp
      · intro front middle q back hsplit
        simp at hsplit
      · intro front q back hsplit
        simp at hsplit
  | tail hreach hreduces ih =>
      obtain ⟨pushed, k, hstack, hk, hpushed⟩ := ih
      cases hreduces with
      | @intro s next top id rule popped state action known length goto below =>
          rcases List.append_eq_append_iff.mp hstack with
            ⟨kept, rfl, hkept⟩ | ⟨more, rfl, hrest⟩
          · exact ⟨next :: kept, k, by rw [hkept, List.cons_append], hk,
              hpushed.push hb hkept state action known length goto hreach⟩
          · have hdrop : start.drop (k + more.length) = top :: below := by
              rw [← List.drop_drop, hrest, List.drop_left]
            have hk' : k + more.length ≤ start.length := by
              have hlength := congrArg List.length hdrop
              rw [List.length_drop, List.length_cons] at hlength
              omega
            have hnext := hreach.tail (.intro state action known length goto below)
            refine ⟨[next], k + more.length, by rw [hdrop]; rfl, hk', ?_⟩
            rw [hdrop]
            exact .single (hb.goto_lt goto) hnext

/-- The stacks that can come up between two shifts. -/
def candidates (table : ParseTable) (start : List StateId) : List (List StateId) :=
  (List.range (start.length + 1)).flatMap fun k =>
    (shortLists table.states.length table.states.length).map (· ++ start.drop k)

theorem length_candidates_le (start : List StateId) :
    (table.candidates start).length ≤
      (start.length + 1) * (table.states.length + 1) ^ table.states.length := by
  have hflat : (table.candidates start).length =
      (start.length + 1) * (shortLists table.states.length table.states.length).length := by
    simp [candidates, List.length_flatMap]
  rw [hflat]
  exact Nat.mul_le_mul_left _ (length_shortLists_le _ _)

/-- If the parser stops, it pushes no state above itself between two shifts. -/
theorem Pushed.nodup {input : List TerminalId} {start pushed rest : List StateId}
    (h : Pushed table (Grammar.firstTerminal input) start pushed rest) {k : Nat}
    (hstops : table.StopsIn k start input) : pushed.Nodup := by
  refine nodup_of_no_repetition fun front q middle back hsplit => ?_
  obtain ⟨k', -, hstops'⟩ := hstops.reflTransGen
    (h.reached (front ++ q :: middle) q back (by simp [hsplit]))
  have hrises : ∀ below, Relation.TransGen (table.Reduces (Grammar.firstTerminal input))
      (q :: below) (q :: middle ++ q :: below) := by
    intro below
    have hrises := h.rises front (q :: middle) q back (by simp [hsplit]) below
    refine (Relation.reflTransGen_iff_eq_or_transGen.mp hrises).resolve_left fun heq => ?_
    have hlength := congrArg List.length heq
    simp only [List.length_append, List.length_cons] at hlength
    omega
  exact not_stopsIn_of_rises hrises k' _ hstops'

/-- The stacks between two shifts are among the candidates, and not much higher
than the first one. -/
theorem IsBounded.mem_candidates (hb : table.IsBounded) {input : List TerminalId}
    {start stack : List StateId} {k : Nat} (hstops : table.StopsIn k start input)
    (hreach : Relation.ReflTransGen (table.Reduces (Grammar.firstTerminal input)) start stack) :
    stack ∈ table.candidates start ∧ stack.length ≤ start.length + table.states.length := by
  obtain ⟨pushed, j, rfl, hj, hpushed⟩ := exists_pushed hb hreach
  have hlength : pushed.length ≤ table.states.length := by
    have hsub : pushed ⊆ List.range table.states.length := fun q hq =>
      List.mem_range.mpr (hpushed.lt q hq)
    have hle := (List.subperm_of_subset (hpushed.nodup hstops) hsub).length_le
    rwa [List.length_range] at hle
  constructor
  · refine List.mem_flatMap.mpr ⟨j, List.mem_range.mpr (Nat.lt_succ_of_le hj), ?_⟩
    exact List.mem_map_of_mem (mem_shortLists hlength hpushed.lt)
  · rw [List.length_append, List.length_drop]
    omega

/-! ## Runs -/

/-- A number of reductions that is not reached between two shifts, by the height
of the stack after the first one. -/
def phaseSteps (size height : Nat) : Nat := (height + 1) * (size + 1) ^ size

/-- A number of steps after the reductions of a phase, by the length of the input
and the height of the stack at the start of the phase. -/
def laterSteps (size : Nat) : Nat → Nat → Nat
  | 0, _ => 1
  | length + 1, height =>
    1 + (phaseSteps size (height + size + 1) + laterSteps size length (height + size + 1))

theorem phaseSteps_mono (size : Nat) {height higher : Nat} (h : height ≤ higher) :
    phaseSteps size height ≤ phaseSteps size higher :=
  Nat.mul_le_mul_right _ (Nat.succ_le_succ h)

theorem laterSteps_mono (size length : Nat) {height higher : Nat} (h : height ≤ higher) :
    laterSteps size length height ≤ laterSteps size length higher := by
  induction length generalizing height higher with
  | zero => exact Nat.le_refl _
  | succ length ih =>
      have hheight : height + size + 1 ≤ higher + size + 1 := by omega
      have hlater := ih hheight
      have hphase := phaseSteps_mono size hheight
      simp only [laterSteps]
      omega

theorem laterSteps_pos (size length height : Nat) : 1 ≤ laterSteps size length height := by
  cases length with
  | zero => exact Nat.le_refl _
  | succ length => exact Nat.le_add_right _ _

/-- What is known between two shifts: the stack after the first one, from which the
parser stops, and the stacks before the current one.  They are distinct, since
the parser comes back to none of them. -/
structure Phase (table : ParseTable) (input : List TerminalId) (start : List StateId)
    (before : List (List StateId)) (stack : List StateId) : Prop where
  stops : ∃ k, table.StopsIn k start input
  reached : Relation.ReflTransGen (table.Reduces (Grammar.firstTerminal input)) start stack
  nodup : before.Nodup
  passed : ∀ earlier ∈ before,
    Relation.ReflTransGen (table.Reduces (Grammar.firstTerminal input)) start earlier ∧
      Relation.TransGen (table.Reduces (Grammar.firstTerminal input)) earlier stack

theorem Phase.initial {input : List TerminalId} {start : List StateId} {k : Nat}
    (h : table.StopsIn k start input) : Phase table input start [] start where
  stops := ⟨k, h⟩
  reached := .refl
  nodup := List.nodup_nil
  passed := by simp

/-- A reduction adds the current stack to the ones before. -/
theorem Phase.reduce {input : List TerminalId} {start stack next : List StateId}
    {before : List (List StateId)} (h : Phase table input start before stack) {k : Nat}
    (hstack : table.StopsIn k stack input)
    (hreduces : table.Reduces (Grammar.firstTerminal input) stack next) :
    Phase table input start (stack :: before) next where
  stops := h.stops
  reached := h.reached.tail hreduces
  nodup := by
    refine List.nodup_cons.mpr ⟨fun hmem => ?_, h.nodup⟩
    exact not_stopsIn_of_returns (h.passed stack hmem).2 k hstack
  passed := by
    intro earlier hearlier
    rcases List.mem_cons.mp hearlier with rfl | hearlier
    · exact ⟨h.reached, .single hreduces⟩
    · exact ⟨(h.passed earlier hearlier).1, (h.passed earlier hearlier).2.tail hreduces⟩

/-- There are no more stacks before the current one than candidates. -/
theorem Phase.length_le (hb : table.IsBounded) {input : List TerminalId}
    {start stack : List StateId} {before : List (List StateId)}
    (h : Phase table input start before stack) :
    before.length ≤ phaseSteps table.states.length start.length := by
  obtain ⟨k, hstops⟩ := h.stops
  have hsub : before ⊆ table.candidates start := fun earlier hearlier =>
    (hb.mem_candidates hstops (h.passed earlier hearlier).1).1
  exact (List.subperm_of_subset h.nodup hsub).length_le.trans (length_candidates_le start)

/-- A run that stops does so within the steps that are left of its phase and those
after it. -/
theorem IsBounded.runSteps_eq_some (hb : table.IsBounded) {k : Nat} {start stack : List StateId}
    {before : List (List StateId)} {input : List TerminalId} {reduced : List RuleId}
    {outcome : ParseOutcome} (hrun : runSteps table.step k ⟨stack, input, reduced⟩ = some outcome)
    (hphase : Phase table input start before stack) :
    runSteps table.step (phaseSteps table.states.length start.length - before.length +
      laterSteps table.states.length input.length start.length)
      ⟨stack, input, reduced⟩ = some outcome := by
  induction k generalizing start stack before input reduced with
  | zero => simp [runSteps] at hrun
  | succ k ih =>
      have hstack : table.StopsIn (k + 1) stack input := ⟨reduced, outcome, hrun⟩
      rw [runSteps] at hrun
      cases hstep : table.step ⟨stack, input, reduced⟩ with
      | stop answer =>
          rw [hstep] at hrun
          have hpos := laterSteps_pos table.states.length input.length start.length
          rw [← Nat.sub_add_cancel (Nat.le_add_left_of_le hpos), runSteps, hstep]
          exact hrun
      | next state =>
          rw [hstep] at hrun
          dsimp only at hrun
          rcases step_eq_next hstep with ⟨hreduces, hinput⟩ | ⟨s, below, next, rfl, hshift, rfl⟩
          · obtain ⟨stack', input', reduced'⟩ := state
            obtain rfl : input' = input := hinput
            -- one stack more before the current one, and one step less
            have hnext := hphase.reduce hstack hreduces
            have hcount := hnext.length_le hb
            have hlater := ih hrun hnext
            rw [List.length_cons] at hcount hlater
            have hleft : phaseSteps table.states.length start.length - before.length =
                phaseSteps table.states.length start.length - (before.length + 1) + 1 := by
              omega
            rw [hleft, Nat.add_right_comm, runSteps, hstep]
            exact hlater
          · cases input with
            | nil => exact absurd hshift hb.not_shift
            | cons t input =>
                obtain ⟨j, hstops⟩ := hphase.stops
                have hheight := (hb.mem_candidates hstops hphase.reached).2
                have hlater := ih hrun (Phase.initial ⟨reduced, outcome, hrun⟩)
                have hhigher : (next :: s :: below).length ≤
                    start.length + table.states.length + 1 := by simpa using hheight
                have hfirst := phaseSteps_mono table.states.length hhigher
                have hmono := laterSteps_mono table.states.length input.length hhigher
                rw [List.length_cons, laterSteps, ← Nat.add_assoc, Nat.add_right_comm, runSteps,
                  hstep]
                refine runSteps_mono ?_ hlater
                simp only [List.length_nil, Nat.sub_zero, List.tail_cons]
                omega

theorem laterSteps_le (size length height : Nat) :
    laterSteps size length height ≤
      (length + 1) * (1 + phaseSteps size (height + length * (size + 1))) := by
  induction length generalizing height with
  | zero =>
      rw [laterSteps]
      omega
  | succ length ih =>
      have hlater := ih (height + size + 1)
      have hheight : height + size + 1 + length * (size + 1) =
          height + (length + 1) * (size + 1) := by
        rw [Nat.succ_mul]
        omega
      have hphase : phaseSteps size (height + size + 1) ≤
          phaseSteps size (height + (length + 1) * (size + 1)) :=
        phaseSteps_mono size (by rw [Nat.succ_mul]; omega)
      rw [hheight] at hlater
      rw [laterSteps, Nat.succ_mul]
      omega

/-- The steps of all phases are no more than the bound of the parser. -/
theorem phaseSteps_add_laterSteps_le (word : List TerminalId) :
    phaseSteps table.states.length 1 + laterSteps table.states.length word.length 1 ≤
      table.stepBound word := by
  rw [stepBound]
  generalize table.states.length = size
  generalize word.length = length
  have hlater := laterSteps_le size length 1
  have hphase : phaseSteps size 1 ≤ phaseSteps size (1 + length * (size + 1)) :=
    phaseSteps_mono size (Nat.le_add_right _ _)
  have hone : 1 ≤ (size + 2) ^ size := Nat.one_le_pow _ _ (by omega)
  have hpow : (size + 1) ^ size ≤ (size + 2) ^ size := Nat.pow_le_pow_left (by omega) _
  have hlinear : 1 + length * (size + 1) + 1 + 1 ≤ (length + 2) * (size + 2) := by
    rw [Nat.add_mul, Nat.mul_succ, Nat.mul_add]
    omega
  have hstep : 1 + phaseSteps size (1 + length * (size + 1)) ≤
      (length + 2) * Nat.pow (size + 2) (size + 4) := by
    calc
      1 + phaseSteps size (1 + length * (size + 1))
          ≤ (size + 2) ^ size + (1 + length * (size + 1) + 1) * (size + 2) ^ size :=
        Nat.add_le_add hone (Nat.mul_le_mul_left _ hpow)
      _ = (1 + length * (size + 1) + 1 + 1) * (size + 2) ^ size := by
        rw [Nat.succ_mul (1 + length * (size + 1) + 1), Nat.add_comm]
      _ ≤ (length + 2) * (size + 2) * (size + 2) ^ size := Nat.mul_le_mul_right _ hlinear
      _ = (length + 2) * (size + 2) ^ (size + 1) := by
        rw [Nat.mul_assoc, Nat.pow_succ, Nat.mul_comm (size + 2)]
      _ ≤ (length + 2) * Nat.pow (size + 2) (size + 4) :=
        Nat.mul_le_mul_left _ (Nat.pow_le_pow_right (by omega) (by omega))
  calc
    phaseSteps size 1 + laterSteps size length 1
        ≤ (length + 2) * (1 + phaseSteps size (1 + length * (size + 1))) := by
      rw [Nat.succ_mul (length + 1)]
      omega
    _ ≤ (length + 2) * ((length + 2) * Nat.pow (size + 2) (size + 4)) :=
      Nat.mul_le_mul_left _ hstep
    _ = (length + 2) * (length + 2) * Nat.pow (size + 2) (size + 4) :=
      (Nat.mul_assoc _ _ _).symm

/-- A run that stops at all stops within the bound of the parser. -/
theorem IsBounded.parse_eq_some_iff (hb : table.IsBounded) {word : List TerminalId}
    {outcome : ParseOutcome} :
    table.parse word = some outcome ↔ ∃ bound, table.run bound word = some outcome := by
  constructor
  · intro h
    exact ⟨_, h⟩
  · rintro ⟨bound, hrun⟩
    have hshort := hb.runSteps_eq_some hrun (Phase.initial ⟨[], outcome, hrun⟩)
    exact runSteps_mono (phaseSteps_add_laterSteps_le word) hshort

end ParseTable

/-- The tables of the constructions are bounded. -/
theorem LRAutomaton.Drives.isBounded {g a : Grammar} {A : LRAutomaton a} {table : ParseTable}
    (hd : A.Drives table) (h : g.IsAugmentation a) : table.IsBounded where
  goto_lt := by
    intro s n next hgoto
    have hmem := Slot.mem_of_first? hgoto
    obtain ⟨⟨item, hitem, hnext⟩, move⟩ := (hd.mem_goto_iff s n next).mp hmem
    obtain ⟨state, hstate, -⟩ := A.holds_advance hitem hnext move
    rw [hd.states_eq]
    exact (List.getElem?_eq_some_iff.mp hstate).1
  not_shift := by
    intro s next haction
    have hcalls := hd.calls_of_action? haction
    cases hcalls with
    | shift hitem hnext move =>
        obtain ⟨rule, hrule, hget⟩ := Grammar.exists_rule_of_next? hnext
        exact h.endOfInput_not_mem hrule (List.mem_of_getElem? hget)

end GrammarAnalysis

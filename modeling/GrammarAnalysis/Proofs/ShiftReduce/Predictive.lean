import GrammarAnalysis.Proofs.Predictive.LeftCorners
import GrammarAnalysis.Proofs.ShiftReduce.Hierarchy
import GrammarAnalysis.Proofs.ShiftReduce.ValidItems

/-!
# Grammars that predict their rules have deterministic canonical tables

Two traces along the same symbols that end where an action is called for on the same
terminal are the same: where an item spawns others, the terminal that the trees over
the rest of the symbols bring to the front determines the rule, and no trace moves over
a nonterminal where another one spawns its rules, because that nonterminal would begin
its own body.  So no state of the canonical automaton calls for two actions.
-/

namespace GrammarAnalysis

open ParseTree

namespace Grammar

variable {g : Grammar} {item j last other : Item} {l l' u t t' : TerminalId}
  {m n : NonterminalId} {symbols : List Symbol} {trees : List ParseTree} {rest : List TerminalId}

/-! ## What follows an item -/

/-- Whether the terminal follows the head of the rule of the item. -/
def IsFollowed (g : Grammar) (item : Item) (t : TerminalId) : Prop :=
  ∃ rule, g.rules.get? item.rule = some rule ∧ g.Follows rule.head t

/-- What comes behind the nonterminal that an item expects follows it. -/
theorem IsFollowed.follows (h : g.IsFollowed item l) (hnext : g.next? item = some (.nonterminal n))
    (hstarts : g.StartsWith u (g.afterNext item ++ [.terminal l])) : g.Follows n u := by
  obtain ⟨rule, hrule, hfollows⟩ := h
  have hsplit : rule.body = rule.body.take item.marker ++ .nonterminal n :: g.afterNext item := by
    rw [← drop_marker_of_next? hnext, bodyOf_eq hrule, List.take_append_drop]
  exact follows_of_startsWith hrule hsplit hfollows hstarts

theorem isFollowed_of_mem_initialItems (hj : j ∈ g.initialItems n) (h : g.Follows n u) :
    g.IsFollowed j u := by
  obtain ⟨rule, hrule, rfl, -⟩ := mem_initialItems.mp hj
  exact ⟨rule, hrule, h⟩

theorem eq_of_mem_initialItems {j' : Item} (hj : j ∈ g.initialItems m) (hj' : j' ∈ g.initialItems n)
    (hrule : j.rule = j'.rule) : j = j' := by
  obtain ⟨-, -, -, hmarker⟩ := mem_initialItems.mp hj
  obtain ⟨-, -, -, hmarker'⟩ := mem_initialItems.mp hj'
  cases j
  cases j'
  simp_all

theorem IsFollowed.advance (h : g.IsFollowed item l) : g.IsFollowed item.advance l := h

/-! ## What traces go on with -/

/-- Whether an item with a lookahead goes on with the terminal: what is left of its body
starts with it in front of the lookahead. -/
def GoesOn (g : Grammar) (item : Item) (l t : TerminalId) : Prop :=
  g.StartsWith t ((g.bodyOf item).drop item.marker ++ [.terminal l])

theorem goesOn_of_complete (h : g.next? item = none) (t : TerminalId) : g.GoesOn item t t := by
  have hdrop : (g.bodyOf item).drop item.marker = [] :=
    List.drop_eq_nil_of_le (List.getElem?_eq_none_iff.mp h)
  rw [GoesOn, hdrop]
  exact .here _

theorem goesOn_of_terminal (h : g.next? item = some (.terminal t)) (l : TerminalId) :
    g.GoesOn item l t := by
  rw [GoesOn, drop_marker_of_next? h]
  exact .here _

theorem goesOn_iff_of_next? {s : Symbol} (h : g.next? item = some s) :
    g.GoesOn item l t ↔ g.StartsWith t (s :: (g.afterNext item ++ [.terminal l])) := by
  rw [GoesOn, drop_marker_of_next? h, List.cons_append]

/-- The item that starts a rule goes on with what the body starts with. -/
theorem GoesOn.exists_rule (h : g.GoesOn j u t) (hj : j ∈ g.initialItems n) :
    ∃ rule, g.rules.get? j.rule = some rule ∧ rule.head = n ∧
      g.StartsWith t (rule.body ++ [.terminal u]) := by
  obtain ⟨rule, hrule, hhead, hmarker⟩ := mem_initialItems.mp hj
  rw [GoesOn, hmarker, List.drop_zero, bodyOf_eq hrule] at h
  exact ⟨rule, hrule, hhead, h⟩

/-- Trees over the symbols of a trace bring a terminal to the front with which the
first item goes on, if the last item goes on with what comes behind the trees. -/
theorem Traces.goesOn (h : g.Traces item l symbols last t) (hforest : IsForestOf g trees symbols)
    (hlast : g.GoesOn last t (firstTerminal rest)) :
    g.GoesOn item l (firstTerminal (leavesOfAll trees ++ rest)) := by
  induction h generalizing trees with
  | refl =>
      rw [hforest.eq_nil]
      exact hlast
  | spawn expects initial starts _ ih =>
      obtain ⟨rule, hrule, rfl, hbody⟩ := (ih hforest hlast).exists_rule initial
      exact (goesOn_iff_of_next? expects).mpr (startsWith_head_of_body hrule hbody starts)
  | advance expects _ ih =>
      obtain ⟨tree, others, rfl, htree, rfl, hothers⟩ := hforest.exists_of_cons
      rw [goesOn_iff_of_next? expects, leavesOfAll_cons, List.append_assoc]
      exact htree.startsWith (ih hothers hlast)

/-- The rule that starts a trace is predicted on the terminal that the trees over the
trace bring to the front. -/
theorem Traces.predicts (h : g.Traces j u symbols last t) (hj : j ∈ g.initialItems n)
    (hfollows : g.Follows n u) (hforest : IsForestOf g trees symbols)
    (hlast : g.GoesOn last t (firstTerminal rest)) :
    ∃ rule, g.rules.get? j.rule = some rule ∧ rule.head = n ∧
      g.Predicts rule (firstTerminal (leavesOfAll trees ++ rest)) := by
  obtain ⟨rule, hrule, rfl, hstarts⟩ := (h.goesOn hforest hlast).exists_rule hj
  exact ⟨rule, hrule, rfl, predicts_of_startsWith hfollows hstarts⟩

/-- If the rule that starts a trace begins with a nonterminal, this is a left corner. -/
theorem Traces.leftCorner (h : g.Traces j u symbols last t) (hj : j ∈ g.initialItems m)
    (hfollows : g.Follows m u) (hnext : g.next? j = some (.nonterminal n))
    (hforest : IsForestOf g trees symbols) (hlast : g.GoesOn last t (firstTerminal rest)) :
    g.LeftCorner (firstTerminal (leavesOfAll trees ++ rest)) m n := by
  obtain ⟨rule, hrule, hhead, hpredicts⟩ := h.predicts hj hfollows hforest hlast
  obtain ⟨-, -, -, hmarker⟩ := mem_initialItems.mp hj
  have hbody := drop_marker_of_next? hnext
  rw [hmarker, List.drop_zero, bodyOf_eq hrule] at hbody
  exact ⟨j.rule, rule, _, hrule, hhead, hpredicts, hbody⟩

/-- A trace that starts with a rule and moves over a nonterminal first comes to it through
left corners. -/
theorem Traces.leftCorners (h : g.Traces j u (.nonterminal n :: symbols) last t)
    (hj : j ∈ g.initialItems m) (hfollows : g.Follows m u)
    (hforest : IsForestOf g trees (.nonterminal n :: symbols))
    (hlast : g.GoesOn last t (firstTerminal rest)) :
    Relation.TransGen (g.LeftCorner (firstTerminal (leavesOfAll trees ++ rest))) m n := by
  generalize hall : Symbol.nonterminal n :: symbols = all at h hforest
  induction h generalizing m with
  | refl => contradiction
  | @spawn item j last k l u t all expects initial starts tail ih =>
      have hwhole := Traces.spawn expects initial starts tail
      have hcorner := hwhole.leftCorner hj hfollows expects hforest hlast
      have hspawned := (isFollowed_of_mem_initialItems hj hfollows).follows expects starts
      exact .head hcorner (ih initial hspawned hlast hall hforest)
  | @advance item last s l t all expects tail ih =>
      obtain ⟨rfl, rfl⟩ := List.cons.inj hall
      have hwhole := Traces.advance expects tail
      exact .single (hwhole.leftCorner hj hfollows expects hforest hlast)

/-! ## Traces are determined -/

/-- One trace does not move over a nonterminal where another one spawns its rules. -/
theorem IsPredictive.not_moves_and_spawns (hg : g.IsPredictive) (hitem : g.IsFollowed item l)
    (hnext : g.next? item = some (.nonterminal n)) (hmoved : g.Traces item.advance l symbols last t)
    (hj : j ∈ g.initialItems n) (hfollows : g.Follows n u)
    (hspawned : g.Traces j u (.nonterminal n :: symbols) other t')
    (hforest : IsForestOf g trees (.nonterminal n :: symbols))
    (hlast : g.GoesOn last t (firstTerminal rest))
    (hother : g.GoesOn other t' (firstTerminal rest)) : False := by
  have hcorners := hspawned.leftCorners hj hfollows hforest hother
  obtain ⟨tree, others, rfl, htree, hroot, hothers⟩ := hforest.exists_of_cons
  have hbehind := hitem.follows hnext (hmoved.goesOn hothers hlast)
  rw [leavesOfAll_cons, List.append_assoc] at hcorners
  exact hg.not_leftCorner_cycle htree hroot hbehind hcorners

/-- Whether an item with a lookahead does not expect a nonterminal and goes on with the
terminal. -/
def ActsOn (g : Grammar) (item : Item) (l t : TerminalId) : Prop :=
  (∀ n, g.next? item ≠ some (.nonterminal n)) ∧ g.GoesOn item l t

/-- Traces along the same symbols to items that act on the same terminal end with the
same item. -/
theorem IsPredictive.traces_eq (hg : g.IsPredictive) (h : g.Traces item l symbols last t)
    (h' : g.Traces item l' symbols other t') (hitem : g.IsFollowed item l)
    (hitem' : g.IsFollowed item l') (hforest : IsForestOf g trees symbols)
    (hlast : g.ActsOn last t (firstTerminal rest))
    (hother : g.ActsOn other t' (firstTerminal rest)) : last = other := by
  induction h generalizing l' trees with
  | refl =>
      cases h' with
      | refl => rfl
      | spawn expects => exact absurd expects (hlast.1 _)
  | @spawn item j last n l u t symbols expects initial starts tail ih =>
      have hfollows := hitem.follows expects starts
      cases h' with
      | refl => exact absurd expects (hother.1 _)
      | @spawn _ j' _ n' _ u' _ _ expects' initial' starts' tail' =>
          obtain rfl : n = n' := by simpa [expects] using expects'
          have hfollows' := hitem'.follows expects' starts'
          obtain ⟨rule, hrule, hhead, hpredicts⟩ :=
            tail.predicts initial hfollows hforest hlast.2
          obtain ⟨rule', hrule', hhead', hpredicts'⟩ :=
            tail'.predicts initial' hfollows' hforest hother.2
          have hsame := hg hrule hrule' (hhead.trans hhead'.symm) hpredicts hpredicts'
          obtain rfl := eq_of_mem_initialItems initial initial' hsame
          exact ih tail' (isFollowed_of_mem_initialItems initial hfollows)
            (isFollowed_of_mem_initialItems initial hfollows') hforest hlast
      | advance expects' tail' =>
          obtain rfl := Option.some.inj (expects.symm.trans expects')
          exact (hg.not_moves_and_spawns hitem' expects' tail' initial hfollows tail hforest
            hother.2 hlast.2).elim
  | @advance item last s l t symbols expects tail ih =>
      cases h' with
      | spawn expects' initial' starts' tail' =>
          obtain rfl := Option.some.inj (expects.symm.trans expects')
          exact (hg.not_moves_and_spawns hitem expects tail initial'
            (hitem'.follows expects' starts') tail' hforest hlast.2 hother.2).elim
      | advance expects' tail' =>
          obtain ⟨tree, others, rfl, -, -, hothers⟩ := hforest.exists_of_cons
          exact ih tail' hitem.advance hitem'.advance hothers hlast

/-- What follows the items of a trace follows the heads of their rules. -/
theorem Traces.isFollowed (h : g.Traces item l symbols last t) (hitem : g.IsFollowed item l) :
    g.IsFollowed last t := by
  induction h with
  | refl => exact hitem
  | spawn expects initial starts _ ih =>
      exact ih (isFollowed_of_mem_initialItems initial (hitem.follows expects starts))
  | advance _ _ ih => exact ih hitem.advance

end Grammar

namespace LRAutomaton

variable {a : Grammar} {A : LRAutomaton a} {s : StateId} {below : List StateId} {item : Item}
  {symbols : List Symbol} {t : TerminalId} {action : Action}

/-- In a productive grammar every item at the end of a path has a lookahead. -/
theorem exists_looks_of_holdsAt (hclosed : a.IsClosed) (hproductive : a.IsProductive)
    (path : Climbs A.states [0] symbols (s :: below)) (hitem : HoldsAt A.states s item) :
    ∃ t, A.looks s item t := by
  have hlooks : ∀ s' below', s :: below = s' :: below' → ∃ t, A.looks s' item t := by
    refine A.path_induction (motive := fun _ stack item =>
      ∀ s below, stack = s :: below → ∃ t, A.looks s item t) ?_ ?_ ?_ path hitem
    · intro s below hstack
      obtain ⟨rfl, -⟩ := List.cons.inj hstack
      exact ⟨endOfInput, A.looks_start⟩
    · intro symbols s below item j n _ _ ih hnext hj s' below' hstack
      obtain ⟨rfl, -⟩ := List.cons.inj hstack
      obtain ⟨l, hl⟩ := ih s below rfl
      obtain ⟨word, hword⟩ := hproductive.exists_word fun symbol hs =>
        hclosed.declares_bodyOf item symbol (List.mem_of_mem_drop hs)
      exact ⟨_, A.looks_spawn hl hnext hj (hword.startsWith_firstTerminal [l])⟩
    · intro symbols s below item symbol next _ _ ih hnext move s' below' hstack
      obtain ⟨rfl, -⟩ := List.cons.inj hstack
      obtain ⟨l, hl⟩ := ih s below rfl
      exact ⟨l, A.looks_next hl hnext move⟩
  exact hlooks s below rfl

/-- The action that an item calls for, without the state to which a shift leads. -/
def calledBy (g : Grammar) (item : Item) : Action :=
  match g.next? item with
  | some _ => .shift 0
  | none => if item.rule = acceptRule then .accept else .reduce item.rule

/-- An action is called for by an item that acts on the terminal. -/
theorem Calls.exists_actsOn (h : A.Calls s t action)
    (hlooks : ∀ item, HoldsAt A.states s item → ∃ l, A.looks s item l)
    (haccept : ∀ item l, A.looks s item l → item.rule = acceptRule → l = endOfInput) :
    ∃ item l, A.looks s item l ∧ a.ActsOn item l t ∧ action.withoutTarget = calledBy a item := by
  cases h with
  | @shift next item _ holds expects _ =>
      obtain ⟨l, hl⟩ := hlooks item holds
      have hacts : a.ActsOn item l t := ⟨by simp [expects], Grammar.goesOn_of_terminal expects l⟩
      exact ⟨item, l, hl, hacts, by simp [calledBy, expects, Action.withoutTarget]⟩
  | @reduce item _ looks complete ne =>
      have hacts : a.ActsOn item t t := ⟨by simp [complete], Grammar.goesOn_of_complete complete t⟩
      exact ⟨item, t, looks, hacts, by simp [calledBy, complete, ne, Action.withoutTarget]⟩
  | @accept item holds complete eq =>
      obtain ⟨l, hl⟩ := hlooks item holds
      obtain rfl := haccept item l hl eq
      have hacts : a.ActsOn item endOfInput endOfInput :=
        ⟨by simp [complete], Grammar.goesOn_of_complete complete endOfInput⟩
      exact ⟨item, endOfInput, hl, hacts, by simp [calledBy, complete, eq, Action.withoutTarget]⟩

end LRAutomaton

namespace CanonicalAutomaton

variable {g a : Grammar} {s : StateId} {item : Item}

theorem isFollowed_start (h : g.IsAugmentation a) :
    a.IsFollowed (Item.initial acceptRule) endOfInput :=
  ⟨_, h.get?_accept, h.start_eq ▸ .start⟩

/-- The items of the reserved rule look at the end of input only. -/
theorem eq_endOfInput_of_looksAt (h : g.IsAugmentation a) {symbols : List Symbol}
    {below : List StateId} {l : TerminalId}
    (path : Climbs a.canonicalAutomaton.parserStates [0] symbols (s :: below))
    (hlooks : LooksAt a s item l) (hrule : item.rule = acceptRule) : l = endOfInput := by
  have htrace := traces_of_looksAt h path hlooks
  obtain ⟨rule, hknown, hfollows⟩ := htrace.isFollowed (isFollowed_start h)
  rw [hrule, h.get?_accept, Option.some.injEq] at hknown
  rw [← hknown] at hfollows
  rcases h.follows hfollows with ⟨-, rfl⟩ | hfollows
  · rfl
  · have hdeclared := (hfollows.declared h.isPlain.isClosed).1
    exact absurd rfl (h.isPlain.nonterminals_pos _ hdeclared)

/-- The states of the canonical automaton of a productive grammar that predicts its rules
call for one action at most. -/
theorem isConflictFree_of_isPredictive (h : g.IsAugmentation a) (hproductive : a.IsProductive)
    (hpredictive : a.IsPredictive) : (toLRAutomaton h).IsConflictFree := by
  intro s t action action' hcalls hcalls'
  obtain ⟨symbols, below, path⟩ := exists_path_of_holdsAt h hcalls.exists_holdsAt.choose_spec
  have hlooks : ∀ item, HoldsAt (toLRAutomaton h).states s item →
      ∃ l, (toLRAutomaton h).looks s item l :=
    fun item hitem => LRAutomaton.exists_looks_of_holdsAt h.isClosed hproductive path hitem
  have haccept : ∀ item l, (toLRAutomaton h).looks s item l → item.rule = acceptRule →
      l = endOfInput :=
    fun item l hl hrule => eq_endOfInput_of_looksAt h path hl hrule
  obtain ⟨item, l, hl, hacts, hcalled⟩ := hcalls.exists_actsOn hlooks haccept
  obtain ⟨item', l', hl', hacts', hcalled'⟩ := hcalls'.exists_actsOn hlooks haccept
  have htrace := traces_of_looksAt h path hl
  have htrace' := traces_of_looksAt h path hl'
  obtain ⟨word, hword⟩ := hproductive.exists_word (htrace.declared h.isClosed)
  obtain ⟨trees, hroots, htrees, -⟩ := hword.exists_trees
  have hsame : item = item' :=
    hpredictive.traces_eq htrace htrace' (isFollowed_start h) (isFollowed_start h)
      ⟨htrees, hroots⟩ (show a.ActsOn item l (Grammar.firstTerminal [t]) from hacts) hacts'
  apply hcalls.eq_of_withoutTarget_eq hcalls'
  rw [hcalled, hcalled', hsame]

end CanonicalAutomaton

/-- The LR(1) table of every productive grammar that is read from text is deterministic if
its predictive table has no conflict. -/
theorem Grammar.exists_deterministic_of_isLL1 {text : String} {g : Grammar}
    (hg : ofText text = .ok g) (hproductive : g.IsProductive)
    (hll1 : (PredictiveTable.ofGrammar g).isLL1 = true) :
    ∃ table, g.parseTable? .lr1 = some table ∧ table.isDeterministic = true := by
  obtain ⟨a, haccept, h⟩ := (isPlain_of_ofText hg).exists_isAugmentation
  have hpredictive := h.isPredictive (isPredictive_of_isLL1 h.isPlain.isClosed hll1)
  have hfree := CanonicalAutomaton.isConflictFree_of_isPredictive h (h.isProductive hproductive)
    hpredictive
  exact ⟨_, parseTable?_eq haccept .lr1, hfree.isDeterministic (CanonicalAutomaton.drives_lr1 h)⟩

/-- This grammar is LL(1) but not LALR(1): the states after `A` and `B` are merged, in which
`E` and `F` may both be completed.  Its LR(1) table is deterministic. -/
theorem Grammar.exists_deterministic_of_isLL1_not_merged :
    ∃ g merged table,
      ofText "S -> ( X | E ] | F )\nX -> E ) | F ]\nE -> A\nF -> A\nA -> epsilon\n" = .ok g ∧
      g.IsProductive ∧ (PredictiveTable.ofGrammar g).isLL1 = true ∧
      g.parseTable? .lalr1 = some merged ∧ merged.isDeterministic = false ∧
      g.parseTable? .lr1 = some table ∧ table.isDeterministic = true := by
  have hcomputed : (ofText
      "S -> ( X | E ] | F )\nX -> E ) | F ]\nE -> A\nF -> A\nA -> epsilon\n").toOption.map
      (fun g => (decide g.IsProductive, (PredictiveTable.ofGrammar g).isLL1,
        (g.parseTable? .lalr1).map ParseTable.isDeterministic)) =
      some (true, true, some false) := by decide +kernel
  obtain ⟨g, hg, hcomputed⟩ := exists_of_ofText hcomputed
  simp only [Prod.mk.injEq, decide_eq_true_eq, Option.map_eq_some_iff] at hcomputed
  obtain ⟨hproductive, hll1, merged, hmerged, hconflict⟩ := hcomputed
  obtain ⟨table, htable, hdet⟩ := exists_deterministic_of_isLL1 hg hproductive hll1
  exact ⟨g, merged, table, hg, hproductive, hll1, hmerged, hconflict, htable, hdet⟩

end GrammarAnalysis

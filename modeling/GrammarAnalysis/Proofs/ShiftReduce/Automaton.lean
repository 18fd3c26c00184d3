import GrammarAnalysis.Proofs.Item.Closure
import GrammarAnalysis.ShiftReduce.State

/-!
# Automata of item sets

The three constructions number sets of items of an augmented grammar.  What
they have in common is collected in `LRAutomaton`: the items of the first state
unfold from the start item, the items of the other states unfold from those that
move over a symbol, and the lookaheads are closed under both.

The states on a stack are the states on a path from the first state.  What holds
of the items along a path is proved by `LRAutomaton.path_induction`.
-/

namespace GrammarAnalysis

/-- Whether the numbered state has the item. -/
def HoldsAt (states : List ParserState) (s : StateId) (item : Item) : Prop :=
  ∃ state, states[s]? = some state ∧ item ∈ state.items.cores

theorem HoldsAt.lt {states : List ParserState} {s : StateId} {item : Item}
    (h : HoldsAt states s item) : s < states.length := by
  obtain ⟨state, hstate, -⟩ := h
  exact (List.getElem?_eq_some_iff.mp hstate).1

/-- Whether the numbered state has a transition over the symbol to another one. -/
def MovesTo (states : List ParserState) (s : StateId) (symbol : Symbol) (next : StateId) : Prop :=
  ∃ state, states[s]? = some state ∧ state.transitions.get? symbol = some next

theorem MovesTo.lt {states : List ParserState} {s next : StateId} {symbol : Symbol}
    (h : MovesTo states s symbol next) : s < states.length := by
  obtain ⟨state, hstate, -⟩ := h
  exact (List.getElem?_eq_some_iff.mp hstate).1

theorem MovesTo.eq {states : List ParserState} {s next other : StateId} {symbol : Symbol}
    (h : MovesTo states s symbol next) (h' : MovesTo states s symbol other) : next = other := by
  obtain ⟨state, hstate, hnext⟩ := h
  obtain ⟨state', hstate', hother⟩ := h'
  rw [hstate, Option.some.injEq] at hstate'
  rw [← hstate', hnext, Option.some.injEq] at hother
  exact hother

/-- The items that a state moves over a symbol. -/
def MovedOver (g : Grammar) (states : List ParserState) (s : StateId) (symbol : Symbol)
    (item : Item) : Prop :=
  ∃ i, HoldsAt states s i ∧ g.next? i = some symbol ∧ item = i.advance

/-- Numbered item sets of an augmented grammar, with the lookaheads on which
their complete items are reduced. -/
structure LRAutomaton (g : Grammar) where
  states : List ParserState
  looks : StateId → Item → TerminalId → Prop
  holds_start : ∀ item,
    HoldsAt states 0 item ↔ g.Unfolds (· = Item.initial acceptRule) item
  holds_next : ∀ {s symbol next}, MovesTo states s symbol next → ∀ item,
    HoldsAt states next item ↔ g.Unfolds (MovedOver g states s symbol) item
  exists_next : ∀ {s item symbol}, HoldsAt states s item → g.next? item = some symbol →
    ∃ next, MovesTo states s symbol next
  holds_of_looks : ∀ {s item t}, looks s item t → HoldsAt states s item
  looks_start : looks 0 (Item.initial acceptRule) endOfInput
  looks_next : ∀ {s item symbol next t}, looks s item t → g.next? item = some symbol →
    MovesTo states s symbol next → looks next item.advance t
  looks_spawn : ∀ {s item j n l t}, looks s item l → g.next? item = some (.nonterminal n) →
    j ∈ g.initialItems n → g.StartsWith t (g.afterNext item ++ [.terminal l]) → looks s j t

/-- Whether the states read along the symbols make the one stack into the other. -/
inductive Climbs (states : List ParserState) :
    List StateId → List Symbol → List StateId → Prop
  | refl (stack : List StateId) : Climbs states stack [] stack
  | step {stack below : List StateId} {symbols : List Symbol} {s next : StateId} {symbol : Symbol}
      (path : Climbs states stack symbols (s :: below)) (move : MovesTo states s symbol next) :
      Climbs states stack (symbols ++ [symbol]) (next :: s :: below)

namespace Climbs

variable {states : List ParserState} {stack middle top : List StateId} {symbols more : List Symbol}

/-- The part of the stack that was there before. -/
theorem drop_eq (h : Climbs states stack symbols top) : top.drop symbols.length = stack := by
  induction h with
  | refl => rfl
  | step _ _ ih => simpa using ih

/-- The symbols determine the path. -/
theorem eq {other : List StateId} (h : Climbs states stack symbols top)
    (h' : Climbs states stack symbols other) : top = other := by
  induction h generalizing other with
  | refl =>
      have hdrop := h'.drop_eq
      simpa using hdrop.symm
  | @step below seen s next symbol path move ih =>
      generalize hall : seen ++ [symbol] = all at h'
      cases h' with
      | refl => simp at hall
      | @step below' seen' s' next' symbol' path' move' =>
          obtain ⟨rfl, hsymbol⟩ := List.append_inj' hall rfl
          rw [List.cons.injEq] at hsymbol
          obtain ⟨rfl, -⟩ := hsymbol
          obtain ⟨rfl, rfl⟩ := List.cons.inj (ih path')
          rw [move.eq move']

end Climbs

namespace LRAutomaton

variable {g : Grammar} (A : LRAutomaton g)

theorem holds_spawn {s : StateId} {below : List StateId} {symbols : List Symbol} {item j : Item}
    {n : NonterminalId} (path : Climbs A.states [0] symbols (s :: below))
    (h : HoldsAt A.states s item) (hnext : g.next? item = some (.nonterminal n))
    (hj : j ∈ g.initialItems n) : HoldsAt A.states s j := by
  cases path with
  | refl => exact (A.holds_start j).mpr (.spawn ((A.holds_start item).mp h) hnext hj)
  | step _ move =>
      exact (A.holds_next move j).mpr (.spawn ((A.holds_next move item).mp h) hnext hj)

theorem holds_advance {s next : StateId} {item : Item} {symbol : Symbol}
    (h : HoldsAt A.states s item) (hnext : g.next? item = some symbol)
    (move : MovesTo A.states s symbol next) : HoldsAt A.states next item.advance :=
  (A.holds_next move _).mpr (.seed ⟨item, h, hnext, rfl⟩)

/-- What holds of the start item, and is kept by unfolding an item and by moving
it, holds of every item at the end of a path. -/
theorem path_induction {motive : List Symbol → List StateId → Item → Prop}
    (start : motive [] [0] (Item.initial acceptRule))
    (spawn : ∀ {symbols s below item j n}, Climbs A.states [0] symbols (s :: below) →
      HoldsAt A.states s item → motive symbols (s :: below) item →
      g.next? item = some (.nonterminal n) → j ∈ g.initialItems n →
      motive symbols (s :: below) j)
    (advance : ∀ {symbols s below item symbol next}, Climbs A.states [0] symbols (s :: below) →
      HoldsAt A.states s item → motive symbols (s :: below) item →
      g.next? item = some symbol → MovesTo A.states s symbol next →
      motive (symbols ++ [symbol]) (next :: s :: below) item.advance)
    {symbols : List Symbol} {s : StateId} {below : List StateId} {item : Item}
    (path : Climbs A.states [0] symbols (s :: below)) (h : HoldsAt A.states s item) :
    motive symbols (s :: below) item := by
  generalize htop : s :: below = top at path
  induction path generalizing s below item with
  | refl =>
      obtain ⟨rfl, rfl⟩ := List.cons.inj htop
      have hunfolds := (A.holds_start item).mp h
      induction hunfolds with
      | seed heq =>
          rw [heq]
          exact start
      | spawn parent hnext hj ih =>
          have hparent := (A.holds_start _).mpr parent
          exact spawn (.refl _) hparent (ih hparent) hnext hj
  | @step below' seen s' next symbol path move ih =>
      obtain ⟨rfl, rfl⟩ := List.cons.inj htop
      have hunfolds := (A.holds_next move item).mp h
      induction hunfolds with
      | seed hmoved =>
          obtain ⟨i, hi, hnext, rfl⟩ := hmoved
          exact advance path hi (ih hi rfl) hnext move
      | spawn parent hnext hj ihParent =>
          have hparent := (A.holds_next move _).mpr parent
          exact spawn (.step path move) hparent (ihParent hparent) hnext hj

/-- The part of the body in front of the marker ends the symbols of the path,
and the path without it ends where the rule was started. -/
theorem exists_origin {symbols : List Symbol} {s : StateId} {below : List StateId} {item : Item}
    (path : Climbs A.states [0] symbols (s :: below)) (h : HoldsAt A.states s item) :
    item.marker ≤ (g.bodyOf item).length ∧
      ∃ before origin rest, symbols = before ++ (g.bodyOf item).take item.marker ∧
        Climbs A.states [0] before (origin :: rest) ∧
        Climbs A.states (origin :: rest) ((g.bodyOf item).take item.marker) (s :: below) ∧
        HoldsAt A.states origin (Item.initial item.rule) := by
  refine A.path_induction (motive := fun symbols stack item =>
    item.marker ≤ (g.bodyOf item).length ∧
      ∃ before origin rest, symbols = before ++ (g.bodyOf item).take item.marker ∧
        Climbs A.states [0] before (origin :: rest) ∧
        Climbs A.states (origin :: rest) ((g.bodyOf item).take item.marker) stack ∧
        HoldsAt A.states origin (Item.initial item.rule)) ?_ ?_ ?_ path h
  · refine ⟨Nat.zero_le _, [], 0, [], rfl, .refl _, .refl _, ?_⟩
    exact (A.holds_start _).mpr (.seed rfl)
  · intro symbols s below item j n path h _ hnext hj
    have hholds := A.holds_spawn path h hnext hj
    obtain ⟨-, -, -, hmarker⟩ := Grammar.mem_initialItems.mp hj
    have hinitial : Item.initial j.rule = j := by
      cases j
      simp_all [Item.initial]
    rw [hmarker, hinitial, List.take_zero]
    exact ⟨Nat.zero_le _, symbols, s, below, by simp, path, .refl _, hholds⟩
  · intro symbols s below item symbol next path h ih hnext move
    obtain ⟨-, before, origin, rest, hsymbols, hbefore, hclimb, hholds⟩ := ih
    obtain ⟨hlt, hget⟩ := List.getElem?_eq_some_iff.mp hnext
    have htake : (g.bodyOf item.advance).take item.advance.marker =
        (g.bodyOf item).take item.marker ++ [symbol] := by
      rw [← hget]
      exact (List.take_append_getElem hlt).symm
    refine ⟨hlt, before, origin, rest, ?_, hbefore, ?_, hholds⟩
    · rw [htake, hsymbols, List.append_assoc]
    · rw [htake]
      exact .step hclimb move

/-! ## States with the same items -/

/-- Whether the states with numbers `s` and `q` have the same items. -/
def SameItems (A B : LRAutomaton g) (s q : StateId) : Prop :=
  ∀ item, HoldsAt A.states s item ↔ HoldsAt B.states q item

namespace SameItems

variable {A B C : LRAutomaton g} {s q r : StateId}

theorem symm (h : A.SameItems B s q) : B.SameItems A q s := fun item => (h item).symm

theorem trans (h : A.SameItems B s q) (h' : B.SameItems C q r) : A.SameItems C s r :=
  fun item => (h item).trans (h' item)

/-- All automata of a grammar start with the same items. -/
theorem zero (A B : LRAutomaton g) : A.SameItems B 0 0 :=
  fun item => (A.holds_start item).trans (B.holds_start item).symm

/-- States with the same items move to states with the same items. -/
theorem next (h : A.SameItems B s q) {next next' : StateId} {symbol : Symbol}
    (move : MovesTo A.states s symbol next) (move' : MovesTo B.states q symbol next') :
    A.SameItems B next next' := by
  intro item
  have hsame : ∀ i, HoldsAt A.states s i ↔ HoldsAt B.states q i := h
  have hmoved : MovedOver g A.states s symbol = MovedOver g B.states q symbol := by
    funext i
    simp only [MovedOver, hsame]
  rw [A.holds_next move, B.holds_next move', hmoved]

end SameItems

end LRAutomaton

end GrammarAnalysis

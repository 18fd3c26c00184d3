import GrammarAnalysis.Grammar.Basic

/-!
# Items

An item is a rule with a marker somewhere in its body: the part before the
marker has been seen, the part after it is expected.  Items are ordered by rule
and then by the place of the marker.
-/

namespace GrammarAnalysis

/-- A rule with a marker in its body. -/
structure Item where
  /-- The number of the rule. -/
  rule : Nat
  /-- The number of symbols in front of the marker. -/
  marker : Nat
deriving DecidableEq, Repr

namespace Item

/-- The item of a rule with the marker in front of the body. -/
def initial (rule : RuleId) : Item := ⟨rule, 0⟩

/-- Whether the marker stands in front of the body. -/
def isInitial (item : Item) : Bool := item.marker = 0

/-- The item with the marker moved over one symbol. -/
def advance (item : Item) : Item := ⟨item.rule, item.marker + 1⟩

/-- Items are ordered by rule, then by marker. -/
instance : LT Item :=
  ⟨fun a b => a.rule < b.rule ∨ a.rule = b.rule ∧ a.marker < b.marker⟩

instance (a b : Item) : Decidable (a < b) :=
  inferInstanceAs (Decidable (a.rule < b.rule ∨ a.rule = b.rule ∧ a.marker < b.marker))

theorem lt_def {a b : Item} :
    a < b ↔ a.rule < b.rule ∨ a.rule = b.rule ∧ a.marker < b.marker := Iff.rfl

theorem lt_trans {a b c : Item} (hab : a < b) (hbc : b < c) : a < c := by
  rw [lt_def] at *
  omega

theorem lt_irrefl (a : Item) : ¬ a < a := by
  rw [lt_def]
  omega

theorem lt_of_not_lt {a b : Item} (h : ¬ a < b) (hne : a ≠ b) : b < a := by
  have hne' : ¬ (a.rule = b.rule ∧ a.marker = b.marker) := by
    rintro ⟨h1, h2⟩
    apply hne
    cases a
    cases b
    simp_all
  rw [lt_def] at *
  omega

end Item

namespace Grammar

/-- The body of the rule of an item; it is empty if the grammar lacks the rule. -/
def bodyOf (g : Grammar) (item : Item) : List Symbol :=
  ((g.rules.get? item.rule).map Rule.body).getD []

/-- The symbol after the marker. -/
def next? (g : Grammar) (item : Item) : Option Symbol := (g.bodyOf item)[item.marker]?

/-- The symbols after the next symbol. -/
def afterNext (g : Grammar) (item : Item) : List Symbol :=
  (g.bodyOf item).drop (item.marker + 1)

/-- Whether the marker stands at the end of the body. -/
def isComplete (g : Grammar) (item : Item) : Bool := (g.bodyOf item).length ≤ item.marker

/-- The initial items of the rules of a nonterminal, in the order of definition. -/
def initialItems (g : Grammar) (n : NonterminalId) : List Item :=
  (g.rulesOf n).map fun entry => Item.initial entry.1

/-- What can come after the next symbol, up to each of the given lookaheads. -/
def previews (g : Grammar) (item : Item) (lookaheads : List TerminalId) : List (List Symbol) :=
  lookaheads.map fun t => g.afterNext item ++ [.terminal t]

/-- The number of items of all rules. -/
def itemCount (g : Grammar) : Nat := g.bodySize + g.rules.size

end Grammar

end GrammarAnalysis

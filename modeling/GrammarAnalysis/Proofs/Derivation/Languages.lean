import GrammarAnalysis.Derivation.Relation
import Mathlib.Computability.Language
import Mathlib.Order.CompletePartialOrder

/-!
# Languages of nonterminals as least solutions

If every nonterminal is read as a language, a sentential form is read as a
language too.  A set of rules asks that the language of each head contains the
language of the body.  What a grammar generates is the least solution
(`Grammar.generates_iff_mem_least`), so two sets of rules are compared by giving
a solution of the one in terms of the other.
-/

namespace GrammarAnalysis

open Computability

/-! ## Sets of rules -/

/-- Whether a rule does not mention a nonterminal. -/
def Rule.Avoids (rule : Rule) (n : NonterminalId) : Prop :=
  rule.head ≠ n ∧ .nonterminal n ∉ rule.body

/-- The rules that give the bodies to the head. -/
def rulesFor (head : NonterminalId) (bodies : List (List Symbol)) : Set Rule :=
  {rule | rule.head = head ∧ rule.body ∈ bodies}

@[simp] theorem mem_rulesFor {head : NonterminalId} {bodies : List (List Symbol)} {rule : Rule} :
    rule ∈ rulesFor head bodies ↔ rule.head = head ∧ rule.body ∈ bodies := Iff.rfl

@[simp] theorem rulesFor_nil (head : NonterminalId) : rulesFor head [] = ∅ := by
  ext rule
  simp

theorem rulesFor_cons (head : NonterminalId) (body : List Symbol) (bodies : List (List Symbol)) :
    rulesFor head (body :: bodies) = {⟨head, body⟩} ∪ rulesFor head bodies := by
  ext ⟨n, form⟩
  simp only [mem_rulesFor, List.mem_cons, Set.mem_union, Set.mem_singleton_iff, Rule.mk.injEq]
  tauto

/-! ## Reading symbols as languages -/

/-- A language for each nonterminal. -/
abbrev Reading := NonterminalId → Language TerminalId

namespace Reading

variable {L L' : Reading} {n : NonterminalId} {s : Symbol} {α β : List Symbol}
  {word : List TerminalId} {K : Language TerminalId} {rules rules' : Set Rule}

/-! ## Sentential forms -/

/-- The words of a symbol. -/
def ofSymbol (L : Reading) : Symbol → Language TerminalId
  | .terminal t => {[t]}
  | .nonterminal n => L n

/-- The words that are cut into words of the symbols, in order. -/
def ofForm (L : Reading) : List Symbol → Language TerminalId
  | [] => 1
  | s :: rest => L.ofSymbol s * L.ofForm rest

/-- The words of some of the forms. -/
def ofAny (L : Reading) (forms : List (List Symbol)) : Language TerminalId :=
  {word | ∃ form ∈ forms, word ∈ L.ofForm form}

@[simp] theorem ofForm_nil : L.ofForm [] = 1 := rfl

@[simp] theorem ofForm_cons : L.ofForm (s :: α) = L.ofSymbol s * L.ofForm α := rfl

@[simp] theorem ofSymbol_nonterminal : L.ofSymbol (.nonterminal n) = L n := rfl

@[simp] theorem ofForm_append : L.ofForm (α ++ β) = L.ofForm α * L.ofForm β := by
  induction α with
  | nil => simp
  | cons s α ih => simp [ih, mul_assoc]

theorem ofForm_singleton : L.ofForm [s] = L.ofSymbol s := by simp

/-- Only the nonterminals of a form matter. -/
theorem ofForm_le (h : ∀ n, .nonterminal n ∈ α → L n ≤ L' n) : L.ofForm α ≤ L'.ofForm α := by
  induction α with
  | nil => exact le_rfl
  | cons s α ih =>
      refine mul_le_mul' ?_ (ih fun n hn => h n (List.mem_cons_of_mem _ hn))
      cases s with
      | terminal t => exact le_rfl
      | nonterminal n => exact h n List.mem_cons_self

theorem ofForm_congr (h : ∀ n, .nonterminal n ∈ α → L n = L' n) : L.ofForm α = L'.ofForm α :=
  le_antisymm (ofForm_le fun n hn => (h n hn).le) (ofForm_le fun n hn => (h n hn).ge)

theorem ofForm_update_of_not_mem (h : .nonterminal n ∉ α) :
    ofForm (Function.update L n K) α = L.ofForm α := by
  refine ofForm_congr fun m hm => Function.update_of_ne ?_ _ _
  rintro rfl
  exact h hm

theorem ofForm_le_ofAny {forms : List (List Symbol)} (h : α ∈ forms) : L.ofForm α ≤ L.ofAny forms :=
  fun _ hword => ⟨α, h, hword⟩

theorem ofAny_mul_le {forms : List (List Symbol)} {K' : Language TerminalId}
    (h : ∀ form ∈ forms, L.ofForm form * K ≤ K') : L.ofAny forms * K ≤ K' := by
  rintro _ ⟨here, ⟨form, hform, hhere⟩, rest, hrest, rfl⟩
  exact h form hform (Language.append_mem_mul hhere hrest)

theorem mul_ofAny_le {forms : List (List Symbol)} {K' : Language TerminalId}
    (h : ∀ form ∈ forms, K * L.ofForm form ≤ K') : K * L.ofAny forms ≤ K' := by
  rintro _ ⟨here, hhere, rest, ⟨form, hform, hrest⟩, rfl⟩
  exact h form hform (Language.append_mem_mul hhere hrest)

theorem nil_mem_ofForm_iff : [] ∈ L.ofForm α ↔ ∀ s ∈ α, [] ∈ L.ofSymbol s := by
  induction α with
  | nil => simp
  | cons s α ih =>
      rw [ofForm_cons, List.forall_mem_cons, ← ih]
      constructor
      · rintro ⟨here, hhere, rest, hrest, hword⟩
        obtain ⟨rfl, rfl⟩ := List.append_eq_nil_iff.mp hword
        exact ⟨hhere, hrest⟩
      · rintro ⟨hs, hα⟩
        exact Language.append_mem_mul hs hα

theorem exists_mem_ofForm_iff :
    (∃ word, word ∈ L.ofForm α) ↔ ∀ s ∈ α, ∃ word, word ∈ L.ofSymbol s := by
  induction α with
  | nil => simp
  | cons s α ih =>
      rw [ofForm_cons, List.forall_mem_cons, ← ih]
      constructor
      · rintro ⟨_, here, hhere, rest, hrest, rfl⟩
        exact ⟨⟨here, hhere⟩, ⟨rest, hrest⟩⟩
      · rintro ⟨⟨here, hhere⟩, ⟨rest, hrest⟩⟩
        exact ⟨here ++ rest, Language.append_mem_mul hhere hrest⟩

/-! ## Solutions -/

/-- Whether the language of the head of each rule contains the language of its body. -/
def Solves (L : Reading) (rules : Set Rule) : Prop := ∀ rule ∈ rules, L.ofForm rule.body ≤ L rule.head

/-- The words that belong to a nonterminal in every solution. -/
def least (rules : Set Rule) : Reading := fun n => {word | ∀ L : Reading, L.Solves rules → word ∈ L n}

theorem Solves.mono (h : L.Solves rules) (hsub : rules' ⊆ rules) : L.Solves rules' :=
  fun rule hrule => h rule (hsub hrule)

theorem solves_union : L.Solves (rules ∪ rules') ↔ L.Solves rules ∧ L.Solves rules' := by
  simp only [Solves, Set.mem_union, or_imp, forall_and]

theorem solves_rulesFor {bodies : List (List Symbol)} :
    L.Solves (rulesFor n bodies) ↔ ∀ body ∈ bodies, L.ofForm body ≤ L n := by
  constructor
  · exact fun h body hbody => h ⟨n, body⟩ ⟨rfl, hbody⟩
  · rintro h ⟨_, body⟩ ⟨rfl, hbody⟩
    exact h body hbody

/-- The language of a nonterminal that no rule mentions may be changed. -/
theorem Solves.update (h : L.Solves rules) (hrules : ∀ rule ∈ rules, rule.Avoids n)
    (K : Language TerminalId) : Solves (Function.update L n K) rules := by
  intro rule hrule
  obtain ⟨hhead, hbody⟩ := hrules rule hrule
  rw [ofForm_update_of_not_mem hbody, Function.update_of_ne hhead]
  exact h rule hrule

theorem least_le (h : L.Solves rules) (n : NonterminalId) : least rules n ≤ L n :=
  fun _ hword => hword L h

/-- The least solution is a solution. -/
theorem solves_least (rules : Set Rule) : (least rules).Solves rules :=
  fun rule hrule _ hword _ hL => hL rule hrule (ofForm_le (fun n _ => least_le hL n) hword)

theorem least_mono (h : rules ⊆ rules') (n : NonterminalId) : least rules n ≤ least rules' n :=
  least_le ((solves_least rules').mono h) n

/-- A word of the least solution comes from the body of a rule. -/
theorem exists_rule_of_mem_least (h : word ∈ least rules n) :
    ∃ rule ∈ rules, rule.head = n ∧ word ∈ (least rules).ofForm rule.body := by
  let fromRules : Reading := fun n =>
    {word | ∃ rule ∈ rules, rule.head = n ∧ word ∈ (least rules).ofForm rule.body}
  have hbelow : ∀ n, fromRules n ≤ least rules n := by
    rintro _ word ⟨rule, hrule, rfl, hword⟩
    exact solves_least rules rule hrule hword
  have hsolves : fromRules.Solves rules := fun rule hrule word hword =>
    ⟨rule, hrule, rfl, ofForm_le (fun n _ => hbelow n) hword⟩
  exact least_le hsolves n h

/-- A nonterminal that the other rules and its own bodies do not mention has the words of its
bodies, read by the other rules. -/
theorem least_union_rulesFor {bodies : List (List Symbol)} (hrules : ∀ rule ∈ rules, rule.Avoids n)
    (hbodies : ∀ body ∈ bodies, .nonterminal n ∉ body) :
    least (rules ∪ rulesFor n bodies) n = (least rules).ofAny bodies := by
  apply le_antisymm
  · have hsolves : Solves (Function.update (least rules) n ((least rules).ofAny bodies))
        (rules ∪ rulesFor n bodies) := by
      refine solves_union.mpr ⟨(solves_least _).update hrules _, ?_⟩
      refine solves_rulesFor.mpr fun body hbody => ?_
      rw [Function.update_self, ofForm_update_of_not_mem (hbodies body hbody)]
      exact ofForm_le_ofAny hbody
    have hle := least_le hsolves n
    rwa [Function.update_self] at hle
  · rintro word ⟨body, hbody, hword⟩
    apply solves_least (rules ∪ rulesFor n bodies) ⟨n, body⟩ (Or.inr ⟨rfl, hbody⟩)
    exact ofForm_le (fun m _ => least_mono Set.subset_union_left m) hword

end Reading

/-! ## Grammars -/

namespace Grammar

open Reading

variable {g : Grammar} {n : NonterminalId} {word : List TerminalId} {form : List Symbol}

/-- The rules of a grammar, without their numbers. -/
def ruleSet (g : Grammar) : Set Rule := {rule | rule ∈ g.rules.values}

/-- What a grammar generates. -/
def generated (g : Grammar) : Reading := fun n => {word | g.Generates n word}

theorem mem_ofForm_sentence {L : Reading} : word ∈ L.ofForm (sentence word) := by
  induction word with
  | nil => exact rfl
  | cons t word ih => exact ⟨[t], rfl, word, ih, rfl⟩

theorem mem_ruleSet_of_get? {id : RuleId} {rule : Rule} (h : g.rules.get? id = some rule) :
    rule ∈ g.ruleSet := by
  obtain hentry := OrderedMap.get?_eq_some_iff.mp h
  exact List.mem_map_of_mem (f := Prod.snd) hentry

theorem exists_get?_of_mem_ruleSet {rule : Rule} (h : rule ∈ g.ruleSet) :
    ∃ id, g.rules.get? id = some rule := by
  obtain ⟨⟨id, _⟩, hentry, rfl⟩ := List.mem_map.mp h
  exact ⟨id, OrderedMap.get?_eq_some_iff.mpr hentry⟩

theorem derives_of_mem_ofForm (h : word ∈ g.generated.ofForm form) :
    g.Derives form (sentence word) := by
  induction form generalizing word with
  | nil =>
      rw [show word = [] from h]
      exact Derives.refl []
  | cons s form ih =>
      obtain ⟨here, hhere, rest, hrest, rfl⟩ := h
      rw [sentence_append, ← List.singleton_append]
      refine Derives.append ?_ (ih hrest)
      cases s with
      | terminal t =>
          rw [show here = [t] from hhere]
          exact Derives.refl _
      | nonterminal n => exact hhere

theorem generated_solves (g : Grammar) : g.generated.Solves g.ruleSet := by
  intro rule hrule word hword
  obtain ⟨id, hid⟩ := exists_get?_of_mem_ruleSet hrule
  exact (Derives.of_rule hid).trans (derives_of_mem_ofForm hword)

theorem mem_ofForm_of_derives (h : g.Derives form (sentence word)) :
    word ∈ (least g.ruleSet).ofForm form := by
  generalize hlast : sentence word = last at h
  induction h with
  | refl =>
      rw [← hlast]
      exact mem_ofForm_sentence
  | @step id form next last first _ ih =>
      have hle : (least g.ruleSet).ofForm next ≤ (least g.ruleSet).ofForm form := by
        obtain ⟨known, before, after⟩ := first
        simp only [ofForm_append, ofForm_cons, ofSymbol_nonterminal, mul_assoc]
        exact mul_le_mul_right
          (mul_le_mul_left (solves_least _ _ (mem_ruleSet_of_get? known)) _) _
      exact hle (ih hlast)

/-- A grammar generates the least solution of its rules. -/
theorem generates_iff_mem_least : g.Generates n word ↔ word ∈ least g.ruleSet n := by
  constructor
  · intro h
    have hform := mem_ofForm_of_derives h
    rwa [ofForm_singleton] at hform
  · intro h
    exact least_le g.generated_solves n h

theorem generated_eq_least (g : Grammar) : g.generated = least g.ruleSet := by
  funext n
  ext word
  exact generates_iff_mem_least

end Grammar

end GrammarAnalysis

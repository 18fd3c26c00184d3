import Mathlib.Data.Set.BooleanAlgebra
import Mathlib.Logic.Relation
import Mathlib.Order.CompletePartialOrder
import GrammarAnalysis.Proofs.Lookahead.Exactness
import GrammarAnalysis.Proofs.Predictive.LeftCorners

/-!
# The first conflict of the predictive table

Rules are registered in order, each on all terminals on which it is to be predicted,
and filling stops at the first cell that receives a second rule.  Up to there no cell
has two rules, so the first rule of that cell comes earlier in the order, and no two
earlier rules meet in a cell.  If filling does not stop, no two rules of a nonterminal
are to be predicted on the same terminal.

The context of the conflict is found by applying registered rules upwards.  Every
step goes to a nonterminal that has not been visited, so the search ends, and
read downwards it is a derivation.
-/

namespace GrammarAnalysis

/-- A member of a list of parts belongs to a part; before it there are the earlier parts
and members of its own part. -/
theorem exists_split_of_flatMap {α β : Type} {f : α → List β} {as : List α} {b : β}
    {before after : List β} (h : as.flatMap f = before ++ b :: after) :
    ∃ earlier a later here, as = earlier ++ a :: later ∧ before = earlier.flatMap f ++ here ∧
      b ∈ f a ∧ ∀ c ∈ here, c ∈ f a := by
  induction as generalizing before with
  | nil => simp at h
  | cons a as ih =>
      rw [List.flatMap_cons, List.append_eq_append_iff] at h
      have hrest : ∀ middle, before = f a ++ middle → as.flatMap f = middle ++ b :: after →
          ∃ earlier a' later here, a :: as = earlier ++ a' :: later ∧
            before = earlier.flatMap f ++ here ∧ b ∈ f a' ∧ ∀ c ∈ here, c ∈ f a' := by
        intro middle hbefore hmiddle
        obtain ⟨earlier, a', later, here, rfl, rfl, hb, hhere⟩ := ih hmiddle
        exact ⟨a :: earlier, a', later, here, rfl, by simp [hbefore], hb, hhere⟩
      rcases h with ⟨middle, hbefore, hmiddle⟩ | ⟨middle, hfa, hmiddle⟩
      · exact hrest middle hbefore hmiddle
      · cases middle with
        | nil => exact hrest [] (by simp [hfa]) (by simpa using hmiddle.symm)
        | cons c middle =>
            obtain ⟨rfl, -⟩ := List.cons.inj hmiddle
            exact ⟨[], a, as, before, rfl, rfl, by simp [hfa], fun d hd => by simp [hfa, hd]⟩

namespace Grammar

variable {g : Grammar} {id id' : RuleId} {rule : Rule} {n : NonterminalId} {t : TerminalId}

/-! ## Terminals on which rules are to be predicted -/

/-- The terminals with which the forms that are derived from a form can start. -/
def firstSet (g : Grammar) (form : List Symbol) : Set TerminalId :=
  {t | ∃ rest, g.Derives form (.terminal t :: rest)}

/-- The terminals that come right after the nonterminal in a derived form; the end of input
if the nonterminal comes last in a form that is derived from the start symbol. -/
def followSet (g : Grammar) (n : NonterminalId) : Set TerminalId :=
  {t | (∃ m ∈ g.nonterminals.keys, ∃ before after,
      g.Derives [.nonterminal m] (before ++ .nonterminal n :: .terminal t :: after)) ∨
    t = endOfInput ∧ ∃ before, g.Derives [.nonterminal g.start] (before ++ [.nonterminal n])}

/-- The terminals on which a rule is to be predicted: what its body can start with, and what
can follow its head if the body derives the empty form. -/
def predictSet (g : Grammar) (rule : Rule) : Set TerminalId :=
  g.firstSet rule.body ∪ {t | g.Derives rule.body [] ∧ t ∈ g.followSet rule.head}

theorem mem_predictSet_iff (hg : g.IsClosed) : t ∈ g.predictSet rule ↔ g.Predicts rule t := by
  have hfirst : t ∈ g.firstSet rule.body ↔ g.StartsWith t rule.body := startsWith_iff_derives.symm
  have hfollow : t ∈ g.followSet rule.head ↔ g.Follows rule.head t :=
    (follows_iff_exists_derives hg).symm
  rw [predictSet, Set.mem_union, hfirst, Set.mem_ofPred_eq, ← vanishes_iff_derives, hfollow,
    Predicts]

/-! ## Conflicts -/

/-- Whether the rules are two rules of the nonterminal that are both to be predicted on the
terminal. -/
structure Collide (g : Grammar) (id id' : RuleId) (n : NonterminalId) (t : TerminalId) : Prop where
  ne : id ≠ id'
  first : ∃ rule, g.rules.get? id = some rule ∧ rule.head = n ∧ t ∈ g.predictSet rule
  second : ∃ rule, g.rules.get? id' = some rule ∧ rule.head = n ∧ t ∈ g.predictSet rule

/-- Whether the first rule is listed before the second one. -/
def ComesBefore (g : Grammar) (id id' : RuleId) : Prop := [id, id'].Sublist g.rules.keys

/-- Whether the rules of the conflict collide as it says, the first one is listed before the
second one, and no two rules that are listed before the second one collide. -/
structure IsFirstConflict (g : Grammar) (conflict : PredictiveConflict) : Prop where
  collide : g.Collide conflict.first conflict.second conflict.nonterminal conflict.lookahead
  comesBefore : g.ComesBefore conflict.first conflict.second
  earliest : ∀ id id' n t, g.ComesBefore id conflict.second → g.ComesBefore id' conflict.second →
    ¬ g.Collide id id' n t

/-- Derivations by the given rules only. -/
def DerivesWith (g : Grammar) (ids : Set RuleId) : List Symbol → List Symbol → Prop :=
  Relation.ReflTransGen fun form next => ∃ id ∈ ids, g.Expands id form next

/-- What is listed before a rule. -/
theorem comesBefore_iff {front back : List RuleId} (h : g.rules.keys = front ++ id' :: back) :
    g.ComesBefore id id' ↔ id ∈ front := by
  have hnodup : (front ++ id' :: back).Nodup := h ▸ g.rules.nodup
  have hnew : id' ∉ back := (List.nodup_cons.mp (List.nodup_append.mp hnodup).2.1).1
  rw [ComesBefore, h]
  constructor
  · intro hsublist
    obtain ⟨before, after, hsplit, hbefore, hafter⟩ := List.sublist_append_iff.mp hsublist
    cases before with
    | nil =>
        rw [List.nil_append] at hsplit
        rw [← hsplit] at hafter
        exact absurd (List.singleton_sublist.mp hafter.tail) hnew
    | cons first before =>
        obtain ⟨rfl, -⟩ := List.cons.inj hsplit
        exact hbefore.subset List.mem_cons_self
  · intro hfront
    exact (List.singleton_sublist.mpr hfront).append (List.singleton_sublist.mpr List.mem_cons_self)

theorem DerivesWith.between {ids : Set RuleId} {form last : List Symbol}
    (h : g.DerivesWith ids form last) (before after : List Symbol) :
    g.DerivesWith ids (before ++ form ++ after) (before ++ last ++ after) :=
  h.lift (fun form => before ++ form ++ after) fun _ _ ⟨id, hid, hexpands⟩ =>
    ⟨id, hid, (hexpands.append_left before).append_right after⟩

end Grammar

/-! ## Cells that receive a second value -/

/-- A value that turns a cell into a conflict comes second in it. -/
theorem Slot.exists_first_of_isConflict {α : Type} [DecidableEq α] {slot : Slot α} {value : α}
    (hfree : slot.isConflict = false) (hconflict : (slot.register value).isConflict = true) :
    ∃ first ∈ slot.values, first ≠ value ∧ (slot.register value).first? = some first := by
  rw [register] at hconflict ⊢
  split at hconflict
  · rw [hfree] at hconflict
    contradiction
  · next hnew =>
    rw [if_neg hnew]
    cases hvalues : slot.values with
    | nil => simp [isConflict, hvalues] at hconflict
    | cons first rest =>
        refine ⟨first, List.mem_cons_self, ?_, by simp [first?]⟩
        rintro rfl
        exact hnew (hvalues ▸ List.mem_cons_self)

namespace PredictiveTable

variable {g : Grammar} {cells cells' : PredictiveCells} {n m : NonterminalId}
  {key : NonterminalId × TerminalId} {id : RuleId}

/-! ## Filling up to a conflict -/

/-- Filling stops right after the registrations that it makes without a conflict. -/
theorem exists_filled_of_fill {registrations : List ((NonterminalId × TerminalId) × RuleId)}
    (h : fill cells registrations = (cells', some (key, id))) :
    ∃ before after filled, registrations = before ++ (key, id) :: after ∧
      fill cells before = (filled, none) ∧ cells' = Cells.register filled key id ∧
      (cells'.slot key).isConflict = true := by
  induction registrations generalizing cells with
  | nil => simp [fill] at h
  | cons entry rest ih =>
      obtain ⟨entryKey, entryId⟩ := entry
      rw [fill] at h
      split at h
      · next hconflict =>
        simp only [Prod.mk.injEq, Option.some.injEq] at h
        obtain ⟨rfl, rfl, rfl⟩ := h
        exact ⟨[], rest, cells, rfl, rfl, rfl, hconflict⟩
      · next hfree =>
        obtain ⟨before, after, filled, rfl, hfilled, hcells, hconflict⟩ := ih h
        refine ⟨(entryKey, entryId) :: before, after, filled, rfl, ?_, hcells, hconflict⟩
        rw [fill, if_neg hfree]
        exact hfilled

/-- What is registered for an entry of the list of rules. -/
def registrationsOf (g : Grammar) (entry : RuleId × Rule) :
    List ((NonterminalId × TerminalId) × RuleId) :=
  (lookaheads (.ofGrammar g) (.ofGrammar g (.ofGrammar g)) entry.2).map fun t =>
    ((entry.2.head, t), entry.1)

theorem mem_registrationsOf_iff (hg : g.IsClosed) {entry : RuleId × Rule}
    (hentry : entry ∈ g.rules.entries) {t : TerminalId} :
    ((n, t), id) ∈ registrationsOf g entry ↔
      entry.1 = id ∧ entry.2.head = n ∧ t ∈ g.predictSet entry.2 := by
  have hrule := OrderedMap.get?_eq_some_iff.mpr hentry
  rw [registrationsOf, Grammar.mem_predictSet_iff hg, ← mem_lookaheads_iff hg hrule, List.mem_map]
  constructor
  · rintro ⟨u, hu, heq⟩
    simp only [Prod.mk.injEq] at heq
    obtain ⟨⟨rfl, rfl⟩, rfl⟩ := heq
    exact ⟨rfl, rfl, hu⟩
  · rintro ⟨rfl, rfl, ht⟩
    exact ⟨t, ht, rfl⟩

/-- No two entries collide that have been registered without a conflict. -/
theorem not_collide_of_fill (hg : g.IsClosed) {earlier : List (RuleId × Rule)}
    (hearlier : earlier ⊆ g.rules.entries)
    {registrations : List ((NonterminalId × TerminalId) × RuleId)}
    (hregistered : earlier.flatMap (registrationsOf g) ⊆ registrations)
    (hfill : fill ∅ registrations = (cells, none)) {id' : RuleId} {t : TerminalId}
    (hid : id ∈ earlier.map Prod.fst) (hid' : id' ∈ earlier.map Prod.fst) :
    ¬ g.Collide id id' n t := by
  obtain ⟨hmem, hfree⟩ := fill_eq_none hfill fun _ => rfl
  have hcell : ∀ id ∈ earlier.map Prod.fst,
      (∃ rule, g.rules.get? id = some rule ∧ rule.head = n ∧ t ∈ g.predictSet rule) →
      id ∈ (cells.slot (n, t)).values := by
    rintro id hid ⟨rule, hrule, hhead, hpredict⟩
    obtain ⟨entry, hentry, rfl⟩ := List.mem_map.mp hid
    rw [OrderedMap.get?_eq_some_iff.mpr (hearlier hentry), Option.some.injEq] at hrule
    subst hrule
    refine (hmem _ _).mpr (Or.inr (hregistered (List.mem_flatMap.mpr ⟨entry, hentry, ?_⟩)))
    exact (mem_registrationsOf_iff hg (hearlier hentry)).mpr ⟨rfl, hhead, hpredict⟩
  intro hcollide
  exact hcollide.ne (Slot.eq_of_mem (hfree _) (hcell id hid hcollide.first)
    (hcell id' hid' hcollide.second))

/-- How the conflict of a table is made. -/
theorem fill_of_conflict {conflict : PredictiveConflict}
    (h : (ofGrammar g).conflict = some conflict) :
    fill ∅ (registrations g (.ofGrammar g) (.ofGrammar g (.ofGrammar g))) =
        ((ofGrammar g).cells, some ((conflict.nonterminal, conflict.lookahead), conflict.second)) ∧
      conflict.first = (((ofGrammar g).cells.slot
        (conflict.nonterminal, conflict.lookahead)).first?).getD conflict.second ∧
      conflict.context = context g (ofGrammar g).cells conflict.nonterminal := by
  obtain ⟨⟨⟨n, t⟩, second⟩, hcollision, rfl⟩ := Option.map_eq_some_iff.mp h
  exact ⟨Prod.ext rfl hcollision, rfl, rfl⟩

/-- The conflict of a table is the first one in the order of the rules. -/
theorem isFirstConflict_of_conflict (hg : g.IsClosed) {conflict : PredictiveConflict}
    (h : (ofGrammar g).conflict = some conflict) : g.IsFirstConflict conflict := by
  obtain ⟨hfill, hfirst, -⟩ := fill_of_conflict h
  obtain ⟨before, after, filled, hsplit, hfilled, hcells, hconflict⟩ := exists_filled_of_fill hfill
  obtain ⟨hmem, hfree⟩ := fill_eq_none hfilled fun _ => rfl
  rw [hcells, Cells.slot_register_self] at hfirst hconflict
  obtain ⟨first, hslot, hne, hvalue⟩ := Slot.exists_first_of_isConflict (hfree _) hconflict
  rw [hvalue, Option.getD_some] at hfirst
  subst hfirst
  obtain ⟨earlier, entry, later, here, hentries, rfl, hsecond, hhere⟩ :=
    exists_split_of_flatMap (f := registrationsOf g) hsplit
  have hentry : entry ∈ g.rules.entries := by simp [hentries]
  have hearlier : earlier ⊆ g.rules.entries := by simp [hentries]
  obtain ⟨hid, hhead, hpredict⟩ := (mem_registrationsOf_iff hg hentry).mp hsecond
  have hkeys : g.rules.keys = earlier.map Prod.fst ++ conflict.second :: later.map Prod.fst := by
    rw [← hid, OrderedMap.keys, hentries, List.map_append, List.map_cons]
  -- The first rule is not the second one, so it is registered for an earlier entry.
  obtain ⟨other, hother, hrow⟩ : ∃ other ∈ earlier,
      ((conflict.nonterminal, conflict.lookahead), conflict.first) ∈ registrationsOf g other := by
    have hlisted := ((hmem _ _).mp hslot).resolve_left List.not_mem_nil
    rw [List.mem_append, List.mem_flatMap] at hlisted
    refine hlisted.resolve_right fun hlast => hne ?_
    rw [← hid, ((mem_registrationsOf_iff hg hentry).mp (hhere _ hlast)).1]
  obtain ⟨hid', hhead', hpredict'⟩ := (mem_registrationsOf_iff hg (hearlier hother)).mp hrow
  refine ⟨⟨hne, ⟨other.2, ?_, hhead', hpredict'⟩, ⟨entry.2, ?_, hhead, hpredict⟩⟩, ?_, ?_⟩
  · exact hid' ▸ OrderedMap.get?_eq_some_iff.mpr (hearlier hother)
  · exact hid ▸ OrderedMap.get?_eq_some_iff.mpr hentry
  · exact (Grammar.comesBefore_iff hkeys).mpr (hid' ▸ List.mem_map_of_mem hother)
  · intro id id' n t hcomes hcomes'
    exact not_collide_of_fill hg hearlier (List.subset_append_left _ _) hfilled
      ((Grammar.comesBefore_iff hkeys).mp hcomes) ((Grammar.comesBefore_iff hkeys).mp hcomes')

/-- Without a conflict no two rules collide, and otherwise the two of the conflict do. -/
theorem isLL1_iff (hg : g.IsClosed) :
    (ofGrammar g).isLL1 = true ↔ ∀ id id' n t, ¬ g.Collide id id' n t := by
  constructor
  · intro hll1 id id' n t hcollide
    obtain ⟨rule, hrule, hhead, hpredict⟩ := hcollide.first
    obtain ⟨rule', hrule', hhead', hpredict'⟩ := hcollide.second
    rw [Grammar.mem_predictSet_iff hg] at hpredict hpredict'
    exact hcollide.ne (Grammar.isPredictive_of_isLL1 hg hll1 hrule hrule' (hhead.trans hhead'.symm)
      hpredict hpredict')
  · intro hnone
    rw [isLL1, Option.isNone_iff_eq_none]
    by_contra hsome
    obtain ⟨conflict, hconflict⟩ := Option.ne_none_iff_exists'.mp hsome
    exact hnone _ _ _ _ (isFirstConflict_of_conflict hg hconflict).collide

/-! ## The context -/

/-- The rules that are registered in some cell. -/
def registered (cells : PredictiveCells) : Set RuleId := {id | ∃ key, id ∈ (cells.slot key).values}

/-- Expanding upwards until the start symbol or a nonterminal without an unvisited parent is
reached, however long that takes, ends with the last form. -/
inductive Ascends (g : Grammar) (cells : PredictiveCells) :
    List NonterminalId → NonterminalId → List Symbol → List Symbol → Prop
  | start (visited : List NonterminalId) (form : List Symbol) :
      Ascends g cells visited g.start form form
  | orphan {visited : List NonterminalId} {n : NonterminalId} (hne : n ≠ g.start)
      (hnone : parent? g cells visited n = none) (form : List Symbol) :
      Ascends g cells visited n form form
  | parent {visited : List NonterminalId} {n head : NonterminalId}
      {before after form last : List Symbol} (hne : n ≠ g.start)
      (hsome : parent? g cells visited n = some (head, before, after))
      (rest : Ascends g cells (head :: visited) head (before ++ form ++ after) last) :
      Ascends g cells visited n form last

theorem parent?_eq_some {visited : List NonterminalId} {before after : List Symbol}
    (h : parent? g cells visited n = some (m, before, after)) :
    m ∉ visited ∧ ∃ id ∈ registered cells, ∃ rule, g.rules.get? id = some rule ∧ rule.head = m ∧
      rule.body = before ++ .nonterminal n :: after := by
  obtain ⟨slot, hslot, hfound⟩ := List.exists_of_findSome?_eq_some h
  obtain ⟨id, hid, hfound⟩ := Option.bind_eq_some_iff.mp hfound
  obtain ⟨rule, hrule, hfound⟩ := Option.bind_eq_some_iff.mp hfound
  split at hfound
  · contradiction
  · next hnew =>
    obtain ⟨i, hi, hparent⟩ := Option.bind_eq_some_iff.mp hfound
    simp only [Option.pure_def, Option.some.injEq, Prod.mk.injEq] at hparent
    obtain ⟨rfl, rfl, rfl⟩ := hparent
    obtain ⟨hlt, hsymbol, -⟩ := List.idxOf?_eq_some_iff.mp hi
    obtain ⟨key, hkey⟩ := OrderedMap.mem_values_iff.mp hslot
    have hregistered : id ∈ (cells.slot key).values := by
      rw [Cells.slot, hkey, Option.getD_some]
      exact Slot.mem_of_first? hid
    refine ⟨fun hmem => hnew (List.contains_iff_mem.mpr hmem), id, ⟨key, hregistered⟩, rule, hrule,
      rfl, ?_⟩
    rw [← hsymbol, List.getElem_cons_drop, List.take_append_drop]

/-- The search goes on as long as a rule that comes first in a cell mentions the nonterminal and
its head has not been visited. -/
theorem head_mem_of_parent?_eq_none {visited : List NonterminalId}
    (h : parent? g cells visited n = none) (hfirst : (cells.slot key).first? = some id)
    {rule : Rule} (hrule : g.rules.get? id = some rule)
    (hmention : .nonterminal n ∈ rule.body) : rule.head ∈ visited := by
  obtain ⟨slot, hkey, hslot⟩ : ∃ slot, cells.get? key = some slot ∧ slot.first? = some id := by
    cases hkey : cells.get? key with
    | none => simp [Cells.slot, hkey, Slot.empty, Slot.first?] at hfirst
    | some slot => exact ⟨slot, rfl, by simpa [Cells.slot, hkey] using hfirst⟩
  have hnone := List.findSome?_eq_none_iff.mp h slot (OrderedMap.mem_values_of_get? hkey)
  obtain ⟨i, hi⟩ : ∃ i, rule.body.idxOf? (.nonterminal n) = some i :=
    Option.isSome_iff_exists.mp (List.isSome_idxOf?.mpr hmention)
  by_contra hnew
  simp [hslot, hrule, hi, hnew] at hnone

/-- The nonterminals that the search can visit: the one with which it starts, and heads of
rules.  Each is visited once. -/
structure IsVisited (g : Grammar) (root : NonterminalId) (visited : List NonterminalId) : Prop where
  nodup : visited.Nodup
  root_or_head : ∀ m ∈ visited, m ∈ root :: g.rules.values.map Rule.head

theorem IsVisited.length_le {root : NonterminalId} {visited : List NonterminalId}
    (h : IsVisited g root visited) : visited.length ≤ g.rules.size + 1 := by
  have hlength := (List.subperm_of_subset h.nodup h.root_or_head).length_le
  simpa [OrderedMap.values, OrderedMap.size] using hlength

theorem IsVisited.cons {root : NonterminalId} {visited : List NonterminalId}
    (h : IsVisited g root visited) {before after : List Symbol}
    (hparent : parent? g cells visited n = some (m, before, after)) :
    IsVisited g root (m :: visited) := by
  obtain ⟨hnew, id, -, rule, hrule, rfl, -⟩ := parent?_eq_some hparent
  refine ⟨List.nodup_cons.mpr ⟨hnew, h.nodup⟩, List.forall_mem_cons.mpr ⟨?_, h.root_or_head⟩⟩
  exact List.mem_cons_of_mem _ (List.mem_map_of_mem (OrderedMap.mem_values_of_get? hrule))

/-- As long as nonterminals are left to be visited, the bound does not cut the search short. -/
theorem ascends_contextFrom {root : NonterminalId} (bound : Nat) {visited : List NonterminalId}
    (h : IsVisited g root visited) (hbound : g.rules.size + 2 ≤ visited.length + bound)
    (n : NonterminalId) (form : List Symbol) :
    Ascends g cells visited n form (contextFrom g cells bound visited n form) := by
  induction bound generalizing visited n form with
  | zero =>
      have hlength := h.length_le
      omega
  | succ bound ih =>
      rw [contextFrom]
      split
      · next hstart =>
        rw [hstart]
        exact .start visited form
      · next hne =>
        split
        · next hnone => exact .orphan hne hnone form
        · next m before after hparent =>
          have hrest : g.rules.size + 2 ≤ (m :: visited).length + bound := by
            rw [List.length_cons]
            omega
          exact .parent hne hparent (ih (h.cons hparent) hrest m (before ++ form ++ after))

theorem ascends_context (g : Grammar) (cells : PredictiveCells) (n : NonterminalId) :
    Ascends g cells [n] n [.nonterminal n] (context g cells n) := by
  have hroot : IsVisited g n [n] :=
    ⟨List.nodup_singleton n, List.forall_mem_singleton.mpr List.mem_cons_self⟩
  refine ascends_contextFrom (g.rules.size + 1) hroot ?_ n _
  rw [List.length_singleton]
  omega

/-- Whether registered rules lead up from a nonterminal in a form to another one with a larger
form.  Each rule mentions the nonterminal below it, and its head has not been visited. -/
inductive LeadsUp (g : Grammar) (ids : Set RuleId) : List NonterminalId → NonterminalId →
    List Symbol → List NonterminalId → NonterminalId → List Symbol → Prop
  | here (visited : List NonterminalId) (n : NonterminalId) (form : List Symbol) :
      LeadsUp g ids visited n form visited n form
  | up {visited visited' : List NonterminalId} {n m : NonterminalId} {id : RuleId} {rule : Rule}
      {before after form last : List Symbol} (hne : n ≠ g.start) (hid : id ∈ ids)
      (hrule : g.rules.get? id = some rule) (hnew : rule.head ∉ visited)
      (hbody : rule.body = before ++ .nonterminal n :: after)
      (rest : LeadsUp g ids (rule.head :: visited) rule.head (before ++ form ++ after)
        visited' m last) :
      LeadsUp g ids visited n form visited' m last

/-- The search follows registered rules, to the start symbol or to a nonterminal without an
unvisited parent. -/
theorem Ascends.exists_leadsUp {visited : List NonterminalId} {form last : List Symbol}
    (h : Ascends g cells visited n form last) :
    ∃ visited' m, LeadsUp g (registered cells) visited n form visited' m last ∧
      visited ⊆ visited' ∧ (m = g.start ∨ parent? g cells visited' m = none) := by
  induction h with
  | start visited form =>
      exact ⟨visited, _, .here visited _ form, List.Subset.refl _, Or.inl rfl⟩
  | orphan _ hnone form => exact ⟨_, _, .here _ _ form, List.Subset.refl _, Or.inr hnone⟩
  | parent hne hparent _ ih =>
      obtain ⟨hnew, id, hid, rule, hrule, rfl, hbody⟩ := parent?_eq_some hparent
      obtain ⟨visited', m, hup, hsubset, hend⟩ := ih
      exact ⟨visited', m, .up hne hid hrule hnew hbody hup,
        List.Subset.trans (List.subset_cons_self _ _) hsubset, hend⟩

/-- The search keeps the symbols of the form. -/
theorem Ascends.subset {visited : List NonterminalId} {form last : List Symbol}
    (h : Ascends g cells visited n form last) : form ⊆ last := by
  induction h with
  | start => exact List.Subset.refl _
  | orphan => exact List.Subset.refl _
  | @parent _ _ _ before after form _ _ _ _ ih =>
      intro s hs
      exact ih (List.mem_append_left _ (List.mem_append_right _ hs))

/-- The form that is found is derived from a nonterminal by registered rules. -/
theorem Ascends.exists_derivesWith (hg : g.IsClosed) {visited : List NonterminalId}
    {form last : List Symbol} (h : Ascends g cells visited n form last)
    (hn : n ∈ g.nonterminals.keys)
    (hform : g.DerivesWith (registered cells) [.nonterminal n] form) :
    ∃ m ∈ g.nonterminals.keys, g.DerivesWith (registered cells) [.nonterminal m] last := by
  induction h with
  | start => exact ⟨_, hn, hform⟩
  | orphan => exact ⟨_, hn, hform⟩
  | @parent visited n m before after form last _ hparent _ ih =>
      obtain ⟨-, id, hid, rule, hrule, rfl, hbody⟩ := parent?_eq_some hparent
      have hexpands : g.Expands id [.nonterminal rule.head]
          (before ++ .nonterminal n :: after) := by
        have hexpands := Grammar.Expands.intro hrule [] []
        simpa [hbody] using hexpands
      have hrest : g.DerivesWith (registered cells) (before ++ .nonterminal n :: after)
          (before ++ form ++ after) := by
        have hrest := hform.between before after
        rwa [List.append_assoc, List.singleton_append] at hrest
      exact ih (hg.head_declared hrule) (Relation.ReflTransGen.head ⟨id, hid, hexpands⟩ hrest)

/-- A registered rule comes first in its cell, unless the cell is the one with the conflict. -/
theorem head_eq_or_first?_of_registered (hg : g.IsClosed) {conflict : PredictiveConflict}
    (h : (ofGrammar g).conflict = some conflict) (hid : id ∈ registered (ofGrammar g).cells)
    {rule : Rule} (hrule : g.rules.get? id = some rule) :
    rule.head = conflict.nonterminal ∨ ∃ key, ((ofGrammar g).cells.slot key).first? = some id := by
  obtain ⟨hfill, -, -⟩ := fill_of_conflict h
  obtain ⟨⟨m, t⟩, hmem⟩ := hid
  by_cases hkey : (m, t) = (conflict.nonterminal, conflict.lookahead)
  · left
    obtain ⟨rfl, -⟩ := Prod.mk.inj hkey
    have hlisted : ((conflict.nonterminal, t), id) ∈
        registrations g (.ofGrammar g) (.ofGrammar g (.ofGrammar g)) := by
      have hfilled : id ∈ ((fill ∅ (registrations g (.ofGrammar g)
          (.ofGrammar g (.ofGrammar g)))).1.slot (conflict.nonterminal, t)).values := by
        rwa [hfill]
      exact (mem_slot_of_fill hfilled).resolve_left List.not_mem_nil
    obtain ⟨rule', hrule', hhead, -⟩ := (mem_registrations_iff hg).mp hlisted
    rw [hrule, Option.some.injEq] at hrule'
    rw [hrule', hhead]
  · right
    obtain ⟨before, after, filled, -, hfilled, hcells, -⟩ := exists_filled_of_fill hfill
    obtain ⟨-, hfree⟩ := fill_eq_none hfilled fun _ => rfl
    refine ⟨(m, t), ?_⟩
    rw [hcells, Cells.slot_register_of_ne hkey] at hmem ⊢
    exact Slot.first?_eq_of_mem (hfree _) hmem

/-- The search for the context of a conflict does not stop before it has to. -/
theorem exists_leadsUp_of_conflict (hg : g.IsClosed) {conflict : PredictiveConflict}
    (h : (ofGrammar g).conflict = some conflict) :
    ∃ visited m, LeadsUp g (registered (ofGrammar g).cells) [conflict.nonterminal]
        conflict.nonterminal [.nonterminal conflict.nonterminal] visited m conflict.context ∧
      (m = g.start ∨ ∀ id ∈ registered (ofGrammar g).cells, ∀ rule, g.rules.get? id = some rule →
        .nonterminal m ∈ rule.body → rule.head ∈ visited) := by
  have hascends := ascends_context g (ofGrammar g).cells conflict.nonterminal
  rw [← (fill_of_conflict h).2.2] at hascends
  obtain ⟨visited, m, hup, hsubset, hend⟩ := hascends.exists_leadsUp
  refine ⟨visited, m, hup, hend.imp_right fun hnone id hid rule hrule hmention => ?_⟩
  rcases head_eq_or_first?_of_registered hg h hid hrule with hhead | ⟨key, hfirst⟩
  · rw [hhead]
    exact hsubset List.mem_cons_self
  · exact head_mem_of_parent?_eq_none hnone hfirst hrule hmention

end PredictiveTable

/-! ## Grammars that are read from text -/

namespace Grammar

variable {g : Grammar}

open PredictiveTable

/-- For every grammar that is read from text, its predictive table has no conflict exactly if
the sets of terminals on which two rules of a nonterminal are to be predicted are always
disjoint.  Otherwise it reports the first conflict in the order of the rules, and the search
for its context ends, with a form in which the nonterminal occurs and which is derived from
some nonterminal by rules that have been registered.  The search goes up from the nonterminal
through heads that it has not visited.  It stops at the start symbol, or where no registered
rule with an unvisited head mentions the nonterminal that it has come to. -/
theorem predictive_verdict_exact {text : String} (hg : ofText text = .ok g) :
    ((PredictiveTable.ofGrammar g).isLL1 = true ↔
      ∀ id id' rule rule', g.rules.get? id = some rule → g.rules.get? id' = some rule' →
        id ≠ id' → rule.head = rule'.head → Disjoint (g.predictSet rule) (g.predictSet rule')) ∧
    ((PredictiveTable.ofGrammar g).isLL1 = false →
      ∃ conflict, (PredictiveTable.ofGrammar g).conflict = some conflict ∧
        g.IsFirstConflict conflict ∧
        Ascends g (PredictiveTable.ofGrammar g).cells [conflict.nonterminal] conflict.nonterminal
          [.nonterminal conflict.nonterminal] conflict.context ∧
        .nonterminal conflict.nonterminal ∈ conflict.context ∧
        (∃ m ∈ g.nonterminals.keys, g.DerivesWith (registered (PredictiveTable.ofGrammar g).cells)
          [.nonterminal m] conflict.context) ∧
        ∃ visited m, LeadsUp g (registered (PredictiveTable.ofGrammar g).cells)
            [conflict.nonterminal] conflict.nonterminal [.nonterminal conflict.nonterminal]
            visited m conflict.context ∧
          (m = g.start ∨ ∀ id ∈ registered (PredictiveTable.ofGrammar g).cells, ∀ rule,
            g.rules.get? id = some rule → .nonterminal m ∈ rule.body → rule.head ∈ visited)) := by
  have hclosed := (isPlain_of_ofText hg).isClosed
  refine ⟨(isLL1_iff hclosed).trans ⟨?_, ?_⟩, fun hll1 => ?_⟩
  · intro hnone id id' rule rule' hrule hrule' hne hhead
    refine Set.disjoint_left.mpr fun t ht ht' => hnone id id' rule'.head t ⟨hne, ?_, ?_⟩
    · exact ⟨rule, hrule, hhead, ht⟩
    · exact ⟨rule', hrule', rfl, ht'⟩
  · rintro hdisjoint id id' n t ⟨hne, ⟨rule, hrule, hhead, ht⟩, ⟨rule', hrule', hhead', ht'⟩⟩
    have hpair := hdisjoint id id' rule rule' hrule hrule' hne (hhead.trans hhead'.symm)
    exact Set.disjoint_left.mp hpair ht ht'
  · obtain ⟨conflict, hconflict⟩ : ∃ conflict,
        (PredictiveTable.ofGrammar g).conflict = some conflict := by
      rw [isLL1, Option.isNone_eq_false_iff] at hll1
      exact Option.isSome_iff_exists.mp hll1
    have hfirst := isFirstConflict_of_conflict hclosed hconflict
    have hascends : Ascends g (PredictiveTable.ofGrammar g).cells [conflict.nonterminal]
        conflict.nonterminal [.nonterminal conflict.nonterminal] conflict.context := by
      rw [(fill_of_conflict hconflict).2.2]
      exact ascends_context g _ conflict.nonterminal
    obtain ⟨rule, hrule, hhead, -⟩ := hfirst.collide.first
    have hdeclared := hhead ▸ hclosed.head_declared hrule
    exact ⟨conflict, hconflict, hfirst, hascends, hascends.subset List.mem_cons_self,
      hascends.exists_derivesWith hclosed hdeclared Relation.ReflTransGen.refl,
      exists_leadsUp_of_conflict hclosed hconflict⟩

/-- Two rules that both derive the empty form, in one of two ways, collide on what follows. -/
theorem predictive_verdict_exact_vanishing :
    ∃ g, ofText "S -> x A y\nA -> B | epsilon\nB -> epsilon | b\n" = .ok g ∧
      g.IsFirstConflict ⟨2, 2, 2, 3, [.terminal 1, .nonterminal 2, .terminal 2]⟩ ∧
      ∃ m ∈ g.nonterminals.keys, g.DerivesWith (registered (PredictiveTable.ofGrammar g).cells)
        [.nonterminal m] [.terminal 1, .nonterminal 2, .terminal 2] := by
  have hcomputed : (ofText "S -> x A y\nA -> B | epsilon\nB -> epsilon | b\n").toOption.map
      (fun g => ((PredictiveTable.ofGrammar g).isLL1, (PredictiveTable.ofGrammar g).conflict)) =
      some (false, some ⟨2, 2, 2, 3, [.terminal 1, .nonterminal 2, .terminal 2]⟩) := by
    decide +kernel
  obtain ⟨g, hg, hcomputed⟩ := exists_of_ofText hcomputed
  obtain ⟨hll1, hfound⟩ := Prod.mk.inj hcomputed
  obtain ⟨conflict, hconflict, hfirst, -, -, hderives, -⟩ := (predictive_verdict_exact hg).2 hll1
  rw [hfound, Option.some.injEq] at hconflict
  subst hconflict
  exact ⟨g, hg, hfirst, hderives⟩

end Grammar

end GrammarAnalysis

import GrammarAnalysis.Proofs.Collections.Maps
import GrammarAnalysis.Proofs.Regex.Simplification
import GrammarAnalysis.Proofs.Regex.Walks
import GrammarAnalysis.Regex.Elimination

/-!
# Removing a state from a table of edges

A table of edges keeps every label twice, with the state it enters and with the
state it leaves.  Removing a state keeps the two sides equal, and what it does to
the languages of the labels is `Labelling.without`.
-/

namespace GrammarAnalysis.EdgeTable

open Computability

/-! ## Rows -/

/-- The label for `j` in row `k`. -/
def valueAt? (rows : List Adjacency) (k j : Nat) : Option Regex := ((rows[k]?).getD ∅).get? j

variable {rows : List Adjacency} {i j k l : Nat}

theorem lt_length_of_valueAt? {r : Regex} (h : valueAt? rows k j = some r) : k < rows.length := by
  by_contra hk
  rw [valueAt?, List.getElem?_eq_none (Nat.le_of_not_lt hk)] at h
  simp at h

theorem valueAt?_modify (f : Adjacency → Adjacency) (hf : k < rows.length ∨ f ∅ = ∅) :
    valueAt? (rows.modify k f) i j =
      if i = k then (f ((rows[k]?).getD ∅)).get? j else valueAt? rows i j := by
  rw [valueAt?, List.getElem?_modify]
  by_cases hi : i = k
  · subst hi
    rw [if_pos rfl]
    cases hrow : rows[i]? with
    | none =>
        rcases hf with hlt | hf
        · rw [List.getElem?_eq_none_iff] at hrow
          exact absurd hlt (Nat.not_lt.mpr hrow)
        · simp [hf]
    | some row => simp
  · rw [if_neg hi, valueAt?]
    simp [Ne.symm hi]

theorem valueAt?_modify_insert (hk : k < rows.length) (r : Regex) :
    valueAt? (rows.modify k (·.insert l r)) i j =
      if i = k ∧ j = l then some r else valueAt? rows i j := by
  rw [valueAt?_modify _ (Or.inl hk)]
  by_cases hi : i = k
  · subst hi
    simp [valueAt?]
  · simp [hi]

theorem valueAt?_modify_erase :
    valueAt? (rows.modify k (·.erase l)) i j =
      if i = k ∧ j = l then none else valueAt? rows i j := by
  rw [valueAt?_modify _ (Or.inr rfl)]
  by_cases hi : i = k
  · subst hi
    simp [valueAt?]
  · simp [hi]

theorem valueAt?_modify_clear :
    valueAt? (rows.modify k fun _ => ∅) i j = if i = k then none else valueAt? rows i j := by
  rw [valueAt?_modify _ (Or.inr rfl), OrderedMap.get?_empty]

/-- Erasing one state from some rows. -/
theorem valueAt?_foldl_erase {marked : List (Nat × Regex)} :
    valueAt? (marked.foldl (fun rows entry => rows.modify entry.1 (·.erase l)) rows) i j =
      if j = l ∧ i ∈ marked.map Prod.fst then none else valueAt? rows i j := by
  induction marked generalizing rows with
  | nil => simp
  | cons entry marked ih =>
      rw [List.foldl_cons, ih, valueAt?_modify_erase]
      by_cases hhere : i = entry.1 ∧ j = l
      · rw [if_pos hhere, ite_self, if_pos ⟨hhere.2, by simp [hhere.1]⟩]
      · rw [if_neg hhere]
        refine if_congr (and_congr_right fun hj => ?_) rfl rfl
        have hi : i ≠ entry.1 := fun hi => hhere ⟨hi, hj⟩
        rw [List.map_cons, List.mem_cons, or_iff_right hi]

/-! ## Two sides -/

/-- Whether the two sides of the table list the same labels. -/
structure IsMirrored (edges : EdgeTable) : Prop where
  length_eq : edges.incoming.length = edges.outgoing.length
  mirror : ∀ p q, valueAt? edges.incoming q p = edges.label? p q

/-- The words of the labels. -/
def language (edges : EdgeTable) : Labelling := fun p q =>
  Regex.optionLanguage (edges.label? p q)

variable {edges : EdgeTable} {p q source target state : Nat} {label r : Regex}

theorem language_of_label? (h : edges.label? p q = some r) : edges.language p q = r.language := by
  rw [language, h, Regex.optionLanguage_some]

theorem language_of_no_label (h : edges.label? p q = none) : edges.language p q = 0 := by
  rw [language, h, Regex.optionLanguage_none]

theorem IsMirrored.lt_of_label? (h : edges.IsMirrored) (hlabel : edges.label? p q = some r) :
    p < edges.outgoing.length ∧ q < edges.outgoing.length := by
  refine ⟨lt_length_of_valueAt? hlabel, ?_⟩
  rw [← h.mirror] at hlabel
  rw [← h.length_eq]
  exact lt_length_of_valueAt? hlabel

/-! ## Connecting states -/

theorem label?_connect (hsource : source < edges.outgoing.length) :
    (edges.connect source target label).label? p q =
      if p = source ∧ q = target then
        some (match edges.label? source target with
          | some existing => existing.either label
          | none => label)
      else edges.label? p q :=
  valueAt?_modify_insert hsource _

theorem language_connect (hsource : source < edges.outgoing.length) :
    (edges.connect source target label).language p q =
      edges.language p q + if p = source ∧ q = target then label.language else 0 := by
  rw [language, language, label?_connect hsource]
  by_cases hpq : p = source ∧ q = target
  · obtain ⟨rfl, rfl⟩ := hpq
    rw [if_pos ⟨rfl, rfl⟩, if_pos ⟨rfl, rfl⟩, Regex.optionLanguage_some]
    cases edges.label? p q with
    | none => rw [Regex.optionLanguage_none, zero_add]
    | some existing => rw [Regex.optionLanguage_some, Regex.language_either]
  · rw [if_neg hpq, if_neg hpq, add_zero]

@[simp] theorem length_connect :
    (edges.connect source target label).outgoing.length = edges.outgoing.length := by
  rw [connect, List.length_modify]

theorem IsMirrored.connect (h : edges.IsMirrored) (hsource : source < edges.outgoing.length)
    (htarget : target < edges.outgoing.length) (label : Regex) :
    (edges.connect source target label).IsMirrored where
  length_eq := by simp [EdgeTable.connect, h.length_eq]
  mirror := by
    intro p q
    rw [← h.length_eq] at htarget
    rw [label?_connect hsource, EdgeTable.connect, valueAt?_modify_insert htarget, h.mirror]
    exact if_congr and_comm rfl rfl

/-- Connects the listed states. -/
def connectAll (edges : EdgeTable) (links : List (Nat × Nat × Regex)) : EdgeTable :=
  links.foldl (fun edges link => edges.connect link.1 link.2.1 link.2.2) edges

variable {link : Nat × Nat × Regex} {links : List (Nat × Nat × Regex)}

/-- Connecting the first of the listed states leaves the sources of the others in range. -/
theorem lt_length_connect (hlinks : ∀ other ∈ link :: links, other.1 < edges.outgoing.length) :
    ∀ other ∈ links, other.1 < (edges.connect source target label).outgoing.length := by
  intro other hother
  rw [length_connect]
  exact hlinks other (List.mem_cons_of_mem _ hother)

theorem IsMirrored.connectAll (h : edges.IsMirrored) (hlinks : ∀ link ∈ links,
      link.1 < edges.outgoing.length ∧ link.2.1 < edges.outgoing.length) :
    (edges.connectAll links).IsMirrored := by
  induction links generalizing edges with
  | nil => exact h
  | cons link links ih =>
      obtain ⟨hsource, htarget⟩ := hlinks link List.mem_cons_self
      refine ih (h.connect hsource htarget link.2.2) fun other hother => ?_
      rw [length_connect]
      exact hlinks other (List.mem_cons_of_mem _ hother)

theorem mem_language_connectAll (hlinks : ∀ link ∈ links, link.1 < edges.outgoing.length)
    {word : List TerminalId} :
    word ∈ (edges.connectAll links).language p q ↔
      word ∈ edges.language p q ∨
        ∃ link ∈ links, link.1 = p ∧ link.2.1 = q ∧ word ∈ link.2.2.language := by
  induction links generalizing edges with
  | nil => simp [connectAll]
  | cons link links ih =>
      rw [connectAll, List.foldl_cons, ← connectAll, ih (lt_length_connect hlinks),
        language_connect (hlinks link List.mem_cons_self), Language.mem_add, or_assoc,
        List.exists_mem_cons_iff]
      refine or_congr_right (or_congr_left ?_)
      split
      · next heq => simp [heq.1, heq.2]
      · next hne =>
        constructor
        · exact False.elim
        · rintro ⟨rfl, rfl, -⟩
          exact absurd ⟨rfl, rfl⟩ hne

theorem label?_connectAll_of_ne (hlinks : ∀ link ∈ links, link.1 < edges.outgoing.length)
    (hne : ∀ link ∈ links, ¬ (p = link.1 ∧ q = link.2.1)) :
    (edges.connectAll links).label? p q = edges.label? p q := by
  induction links generalizing edges with
  | nil => rfl
  | cons link links ih =>
      rw [connectAll, List.foldl_cons, ← connectAll,
        ih (lt_length_connect hlinks) fun other hother => hne other (List.mem_cons_of_mem _ hother),
        label?_connect (hlinks link List.mem_cons_self), if_neg (hne link List.mem_cons_self)]

/-! ## Removing the edges of a state -/

/-- Erasing a state from the listed rows, and its own row, leaves the other labels if the
rows with an entry for the state are among the listed ones. -/
theorem valueAt?_detached {marked : List (Nat × Regex)}
    (hmarked : ∀ i, i ≠ k → valueAt? rows i k ≠ none → i ∈ marked.map Prod.fst) :
    valueAt? ((marked.foldl (fun rows entry => rows.modify entry.1 (·.erase k)) rows).modify k
      fun _ => ∅) i j = if i = k ∨ j = k then none else valueAt? rows i j := by
  rw [valueAt?_modify_clear, valueAt?_foldl_erase]
  by_cases hi : i = k
  · simp [hi]
  · by_cases hj : j = k
    · subst hj
      simp only [hi, if_false, true_and, or_true, if_true, ite_eq_left_iff]
      intro hmem
      by_contra hlabel
      exact hmem (hmarked i hi hlabel)
    · simp [hi, hj]

theorem label?_detach {predecessors successors : List (Nat × Regex)}
    (hpredecessors : ∀ p, p ≠ state → edges.label? p state ≠ none →
      p ∈ predecessors.map Prod.fst) :
    (edges.detach state predecessors successors).label? p q =
      if p = state ∨ q = state then none else edges.label? p q :=
  valueAt?_detached hpredecessors

theorem IsMirrored.detach (h : edges.IsMirrored) {predecessors successors : List (Nat × Regex)}
    (hpredecessors : ∀ p, p ≠ state → edges.label? p state ≠ none →
      p ∈ predecessors.map Prod.fst)
    (hsuccessors : ∀ p, p ≠ state → edges.label? state p ≠ none → p ∈ successors.map Prod.fst) :
    (edges.detach state predecessors successors).IsMirrored := by
  have hlength : ∀ (marked : List (Nat × Regex)) (rows : List Adjacency),
      (marked.foldl (fun rows entry => rows.modify entry.1 (·.erase state)) rows).length =
        rows.length := by
    intro marked
    induction marked with
    | nil => exact fun _ => rfl
    | cons entry marked ih =>
        intro rows
        rw [List.foldl_cons, ih, List.length_modify]
  refine ⟨?_, fun p q => ?_⟩
  · simp [EdgeTable.detach, hlength, h.length_eq]
  · rw [label?_detach hpredecessors, ← h.mirror p q]
    refine (valueAt?_detached fun i hi hlabel => hsuccessors i hi ?_).trans
      (if_congr or_comm rfl rfl)
    rwa [h.mirror] at hlabel

/-! ## Removing a state -/

/-- The other states with an edge to the state. -/
def predecessors (edges : EdgeTable) (state : Nat) : List (Nat × Regex) :=
  (edges.into state).entries.filter fun entry => entry.1 ≠ state

/-- The other states with an edge from the state. -/
def successors (edges : EdgeTable) (state : Nat) : List (Nat × Regex) :=
  (edges.out state).entries.filter fun entry => entry.1 ≠ state

/-- The paths through a state, from each predecessor to each successor. -/
def detours (edges : EdgeTable) (state : Nat) : List (Nat × Nat × Regex) :=
  (edges.predecessors state).flatMap fun source => (edges.successors state).map fun target =>
    (source.1, target.1, .concatAll (source.2 ::
      (((edges.label? state state).map Regex.repeated).toList ++ [target.2])))

theorem eliminate_eq : edges.eliminate state = (edges.connectAll (edges.detours state)).detach
    state (edges.predecessors state) (edges.successors state) := by
  simp only [eliminate, reroute, connectAll, detours, List.foldl_flatMap, List.foldl_map]
  rfl

theorem mem_predecessors_iff (h : edges.IsMirrored) {entry : Nat × Regex} :
    entry ∈ edges.predecessors state ↔
      edges.label? entry.1 state = some entry.2 ∧ entry.1 ≠ state := by
  rw [predecessors, List.mem_filter, ← h.mirror, decide_eq_true_eq]
  exact and_congr_left fun _ => OrderedMap.get?_eq_some_iff.symm

theorem mem_successors_iff {entry : Nat × Regex} :
    entry ∈ edges.successors state ↔
      edges.label? state entry.1 = some entry.2 ∧ entry.1 ≠ state := by
  rw [successors, List.mem_filter, decide_eq_true_eq]
  exact and_congr_left fun _ => OrderedMap.get?_eq_some_iff.symm

theorem mem_detours_iff (h : edges.IsMirrored) :
    (p, q, r) ∈ edges.detours state ↔ p ≠ state ∧ q ≠ state ∧
      ∃ into out, edges.label? p state = some into ∧ edges.label? state q = some out ∧
        r = .concatAll (into ::
          (((edges.label? state state).map Regex.repeated).toList ++ [out])) := by
  simp only [detours, List.mem_flatMap, List.mem_map, Prod.exists, mem_predecessors_iff h,
    mem_successors_iff, Prod.mk.injEq]
  constructor
  · rintro ⟨p, into, ⟨hinto, hp⟩, q, out, ⟨hout, hq⟩, rfl, rfl, rfl⟩
    exact ⟨hp, hq, into, out, hinto, hout, rfl⟩
  · rintro ⟨hp, hq, into, out, hinto, hout, rfl⟩
    exact ⟨p, into, ⟨hinto, hp⟩, q, out, ⟨hout, hq⟩, rfl, rfl, rfl⟩

/-- A detour reads what comes to the state, any number of its loops, and what leaves it. -/
theorem language_of_mem_detours (h : edges.IsMirrored) (hlink : (p, q, r) ∈ edges.detours state) :
    r.language =
      edges.language p state * (edges.language state state)∗ * edges.language state q := by
  obtain ⟨-, -, into, out, hinto, hout, rfl⟩ := (mem_detours_iff h).mp hlink
  rw [language_of_label? hinto, language_of_label? hout, Regex.language_concatAll,
    Regex.chainLanguage_cons, Regex.chainLanguage_append, Regex.chainLanguage_repeated, mul_assoc]
  simp [language]

theorem exists_mem_detours (h : edges.IsMirrored) (hp : p ≠ state) (hq : q ≠ state)
    {word : List TerminalId}
    (hword : word ∈
      edges.language p state * (edges.language state state)∗ * edges.language state q) :
    ∃ r, (p, q, r) ∈ edges.detours state := by
  obtain ⟨-, ⟨-, ⟨into, hinto, -⟩, -⟩, -, ⟨out, hout, -⟩, -⟩ := hword
  exact ⟨_, (mem_detours_iff h).mpr ⟨hp, hq, into, out, hinto, hout, rfl⟩⟩

theorem lt_of_mem_detours (h : edges.IsMirrored) :
    ∀ link ∈ edges.detours state,
      link.1 < edges.outgoing.length ∧ link.2.1 < edges.outgoing.length := by
  rintro ⟨p, q, r⟩ hlink
  obtain ⟨-, -, into, out, hinto, hout, -⟩ := (mem_detours_iff h).mp hlink
  exact ⟨(h.lt_of_label? hinto).1, (h.lt_of_label? hout).2⟩

/-- The detours leave the edges of the state as they are. -/
theorem label?_connectAll_detours (h : edges.IsMirrored) (hstate : p = state ∨ q = state) :
    (edges.connectAll (edges.detours state)).label? p q = edges.label? p q := by
  refine label?_connectAll_of_ne (fun link hlink => (lt_of_mem_detours h link hlink).1) ?_
  rintro ⟨p', q', r⟩ hlink ⟨rfl, rfl⟩
  obtain ⟨hp, hq, -⟩ := (mem_detours_iff h).mp hlink
  exact hstate.elim hp hq

theorem mem_map_predecessors (h : edges.IsMirrored) (hp : p ≠ state)
    (hlabel : (edges.connectAll (edges.detours state)).label? p state ≠ none) :
    p ∈ (edges.predecessors state).map Prod.fst := by
  rw [label?_connectAll_detours h (Or.inr rfl)] at hlabel
  obtain ⟨r, hr⟩ := Option.ne_none_iff_exists'.mp hlabel
  exact List.mem_map.mpr ⟨(p, r), (mem_predecessors_iff h).mpr ⟨hr, hp⟩, rfl⟩

theorem mem_map_successors (h : edges.IsMirrored) (hp : p ≠ state)
    (hlabel : (edges.connectAll (edges.detours state)).label? state p ≠ none) :
    p ∈ (edges.successors state).map Prod.fst := by
  rw [label?_connectAll_detours h (Or.inl rfl)] at hlabel
  obtain ⟨r, hr⟩ := Option.ne_none_iff_exists'.mp hlabel
  exact List.mem_map.mpr ⟨(p, r), mem_successors_iff.mpr ⟨hr, hp⟩, rfl⟩

theorem IsMirrored.eliminate (h : edges.IsMirrored) (state : Nat) :
    (edges.eliminate state).IsMirrored := by
  rw [eliminate_eq]
  exact (h.connectAll (lt_of_mem_detours h)).detach (fun _ => mem_map_predecessors h)
    fun _ => mem_map_successors h

theorem label?_eliminate (h : edges.IsMirrored) (state p q : Nat) :
    (edges.eliminate state).label? p q =
      if p = state ∨ q = state then none
      else (edges.connectAll (edges.detours state)).label? p q := by
  rw [eliminate_eq, label?_detach fun _ => mem_map_predecessors h]

/-- Removing a state makes the paths through it labels of the other edges. -/
theorem language_eliminate (h : edges.IsMirrored) (state : Nat) :
    (edges.eliminate state).language = edges.language.without state := by
  funext p q
  have hlabel := label?_eliminate h state p q
  by_cases hstate : p = state ∨ q = state
  · rw [if_pos hstate] at hlabel
    rw [language_of_no_label hlabel, Labelling.without, if_pos hstate]
  · rw [if_neg hstate] at hlabel
    obtain ⟨hp, hq⟩ := not_or.mp hstate
    ext word
    have hconnect : word ∈ (edges.connectAll (edges.detours state)).language p q ↔ _ :=
      mem_language_connectAll fun link hlink => (lt_of_mem_detours h link hlink).1
    rw [Labelling.without_of_ne hp hq, Language.mem_add]
    have hsame : word ∈ (edges.eliminate state).language p q ↔
        word ∈ (edges.connectAll (edges.detours state)).language p q := by
      simp only [language, hlabel]
    rw [hsame, hconnect]
    refine or_congr_right ⟨?_, fun hword => ?_⟩
    · rintro ⟨⟨p', q', r⟩, hlink, rfl, rfl, hword⟩
      rwa [← language_of_mem_detours h hlink]
    · obtain ⟨r, hlink⟩ := exists_mem_detours h hp hq hword
      refine ⟨_, hlink, rfl, rfl, ?_⟩
      rwa [language_of_mem_detours h hlink]

/-! ## Labels with words -/

/-- Whether every label has a word. -/
def HasWords (edges : EdgeTable) : Prop :=
  ∀ p q r, edges.label? p q = some r → ∃ word, word ∈ r.language

theorem HasWords.label?_eq_none (hw : edges.HasWords) (h : edges.language p q = 0) :
    edges.label? p q = none := by
  cases hlabel : edges.label? p q with
  | none => rfl
  | some r =>
      obtain ⟨word, hword⟩ := hw p q r hlabel
      rw [← language_of_label? hlabel, h] at hword
      exact absurd hword (Language.notMem_zero word)

theorem HasWords.eliminate (hw : edges.HasWords) (h : edges.IsMirrored) (state : Nat) :
    (edges.eliminate state).HasWords := by
  intro p q r hr
  rw [← language_of_label? hr, language_eliminate h]
  rw [label?_eliminate h] at hr
  split at hr
  · simp at hr
  · next hstate =>
    obtain ⟨hp, hq⟩ := not_or.mp hstate
    rw [Labelling.without_of_ne hp hq]
    by_cases hdetour : ∃ r, (p, q, r) ∈ edges.detours state
    · obtain ⟨r, hlink⟩ := hdetour
      obtain ⟨-, -, into, out, hinto, hout, -⟩ := (mem_detours_iff h).mp hlink
      obtain ⟨before, hbefore⟩ := hw p state into hinto
      obtain ⟨after, hafter⟩ := hw state q out hout
      rw [← language_of_label? hinto] at hbefore
      rw [← language_of_label? hout] at hafter
      exact ⟨before ++ [] ++ after, Or.inr (Language.append_mem_mul
        (Language.append_mem_mul hbefore (Language.nil_mem_kstar _)) hafter)⟩
    · rw [label?_connectAll_of_ne fun link hlink => (lt_of_mem_detours h link hlink).1] at hr
      · obtain ⟨word, hword⟩ := hw p q r hr
        rw [← language_of_label? hr] at hword
        exact ⟨word, Or.inl hword⟩
      · rintro ⟨p', q', r'⟩ hlink ⟨rfl, rfl⟩
        exact hdetour ⟨r', hlink⟩

end GrammarAnalysis.EdgeTable

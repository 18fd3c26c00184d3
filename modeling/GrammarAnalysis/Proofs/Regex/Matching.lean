import GrammarAnalysis.Proofs.Automaton.Building
import GrammarAnalysis.Proofs.Automaton.SubsetGraph
import GrammarAnalysis.Regex.Automaton
import GrammarAnalysis.Regex.Language

/-!
# An expression matches the words that it denotes

The automaton of an expression grows part by part.  Each word of an expression is
read by a path through its part.  Conversely, once it is said what is read after
the exit of a part, languages for all states of the part account for its edges,
with the words of the expression at its entry; this stays true when edges are
added elsewhere.  Subset construction keeps the words, so the deterministic
automaton of the expression reads the same ones.
-/

namespace GrammarAnalysis.Regex

open StateGraph Computability

variable {graph graph' : Graph} {A : Language TerminalId}

/-! ## Parts of a graph -/

/-- Whether the part that is added to a graph reads the words of a language. -/
structure IsPart (graph graph' : Graph) (part : Gate) (A : Language TerminalId) : Prop where
  grows : graph.Grows graph' fun _ => False
  size_le_entry : graph.size ≤ part.entry
  entry_lt : part.entry < graph'.size
  size_le_exit : graph.size ≤ part.exit
  exit_lt : part.exit < graph'.size
  isDeadEnd : graph'.IsDeadEnd part.exit
  complete : ∀ word ∈ A, graph'.Path part.entry word part.exit
  sound : ∀ (L : NodeId → Language TerminalId) (K : Language TerminalId),
    ∃ L' : NodeId → Language TerminalId, (∀ n, n < graph.size → L' n = L n) ∧
      L' part.entry = A * K ∧ L' part.exit = K ∧ ∀ n, graph.size ≤ n → graph'.Accounts L' n

/-- Whether the chain that is added to a graph behind a state reads the words of a
language. -/
structure IsChain (graph graph' : Graph) (first last : NodeId) (A : Language TerminalId) :
    Prop where
  grows : graph.Grows graph' (· = first)
  last_eq_or_size_le : last = first ∨ graph.size ≤ last
  last_lt : last < graph'.size
  isDeadEnd : graph'.IsDeadEnd last
  complete : ∀ word ∈ A, graph'.Path first word last
  sound : ∀ (L : NodeId → Language TerminalId) (K : Language TerminalId), L first = A * K →
    ∃ L' : NodeId → Language TerminalId, (∀ n, n < graph.size → L' n = L n) ∧ L' last = K ∧
      ∀ n, n = first ∨ graph.size ≤ n → graph'.Accounts L' n

/-- Whether the branches that are added between an entry and an exit read the words
of a language. -/
structure AreBranches (graph graph' : Graph) (gate : Gate) (A : Language TerminalId) :
    Prop where
  grows : graph.Grows graph' (· = gate.entry)
  complete : ∀ word ∈ A, graph'.Path gate.entry word gate.exit
  sound : ∀ L : NodeId → Language TerminalId, A * L gate.exit ≤ L gate.entry →
    graph.Accounts L gate.entry →
      ∃ L' : NodeId → Language TerminalId, (∀ n, n < graph.size → L' n = L n) ∧
        ∀ n, n = gate.entry ∨ graph.size ≤ n → graph'.Accounts L' n

/-! ## The entry and the exit -/

/-- The graph with a new entry and a new exit. -/
def gated (graph : Graph) : Graph := ((graph.addNode () false).2.addNode () false).2

/-- The new entry and the new exit. -/
def gate (graph : Graph) : Gate := ⟨graph.size, (graph.addNode () false).2.size⟩

theorem gate_exit : (gate graph).exit = graph.size + 1 := size_addNode

@[simp] theorem size_gated : (gated graph).size = graph.size + 2 := by
  simp [gated]

theorem gate_entry_lt : (gate graph).entry < (gated graph).size := by
  rw [size_gated]
  exact Nat.lt_add_of_pos_right Nat.two_pos

theorem gate_exit_lt : (gate graph).exit < (gated graph).size := by
  rw [gate_exit, size_gated]
  exact Nat.lt_succ_self _

theorem lt_gate_exit : graph.size < (gate graph).exit := by
  rw [gate_exit]
  exact Nat.lt_succ_self _

theorem size_le_of_gated {n : NodeId} (hn : n = (gate graph).entry ∨ (gated graph).size ≤ n) :
    graph.size ≤ n := by
  rcases hn with rfl | hn
  · exact Nat.le_refl _
  · exact gate_entry_lt.le.trans hn

theorem grows_gated (graph : Graph) : graph.Grows (gated graph) fun _ => False :=
  (grows_addNode graph ()).trans (grows_addNode _ ()) fun _ _ h => h

theorem isDeadEnd_gated {n : NodeId} (hn : graph.size ≤ n) : (gated graph).IsDeadEnd n := by
  obtain ⟨hepsilon, htarget⟩ := isDeadEnd_of_size_le hn
  refine ⟨fun m => ?_, fun t m => ?_⟩
  · simpa [gated] using hepsilon m
  · simpa [gated] using htarget t m

/-- What is built behind a new entry and exit is a part. -/
theorem isPart_of_gated (hgrows : (gated graph).Grows graph' (· = (gate graph).entry))
    (hcomplete : ∀ word ∈ A, graph'.Path (gate graph).entry word (gate graph).exit)
    (hsound : ∀ L : NodeId → Language TerminalId, L (gate graph).entry = A * L (gate graph).exit →
      ∃ L' : NodeId → Language TerminalId, (∀ n, n < (gated graph).size → L' n = L n) ∧
        ∀ n, n = (gate graph).entry ∨ (gated graph).size ≤ n → graph'.Accounts L' n) :
    IsPart graph graph' (gate graph) A := by
  have hexit : graph'.IsDeadEnd (gate graph).exit := by
    exact (isDeadEnd_gated lt_gate_exit.le).grow hgrows gate_exit_lt lt_gate_exit.ne'
  refine
    { grows := (grows_gated graph).trans hgrows fun n hn h => absurd h hn.ne
      size_le_entry := Nat.le_refl _
      entry_lt := gate_entry_lt.trans_le hgrows.size_le
      size_le_exit := lt_gate_exit.le
      exit_lt := gate_exit_lt.trans_le hgrows.size_le
      isDeadEnd := hexit
      complete := hcomplete
      sound := fun L K => ?_ }
  let atGate : NodeId → Language TerminalId := fun n =>
    if n = (gate graph).entry then A * K else if n = (gate graph).exit then K else L n
  have hentry : atGate (gate graph).entry = A * K := if_pos rfl
  have hlast : atGate (gate graph).exit = K :=
    (if_neg lt_gate_exit.ne').trans (if_pos rfl)
  obtain ⟨L', hsame, haccounts⟩ := hsound atGate (by rw [hentry, hlast])
  refine ⟨L', fun n hn => ?_, ?_, ?_, fun n hn => ?_⟩
  · rw [hsame n (hn.trans gate_entry_lt)]
    exact (if_neg hn.ne).trans (if_neg (hn.trans lt_gate_exit).ne)
  · rw [hsame _ gate_entry_lt, hentry]
  · rw [hsame _ gate_exit_lt, hlast]
  · by_cases hn' : n = (gate graph).exit
    · rw [hn']
      exact hexit.accounts
    · refine haccounts n ?_
      rw [gate_exit] at hn'
      have hor : n = graph.size ∨ graph.size + 2 ≤ n := by omega
      rwa [size_gated]

/-! ## The five kinds of expressions -/

theorem isPart_epsilon :
    IsPart graph ((gated graph).addEpsilon (gate graph).entry (gate graph).exit) (gate graph)
      1 := by
  refine isPart_of_gated (grows_addEpsilon gate_entry_lt gate_exit_lt) ?_ fun L hL => ?_
  · rintro word rfl
    exact Path.epsilon ((mem_epsilons_addEpsilon gate_entry_lt).mpr (Or.inr ⟨rfl, rfl⟩))
      (.refl _)
  · refine ⟨L, fun n _ => rfl, fun n hn => ?_⟩
    refine (isDeadEnd_gated (size_le_of_gated hn)).accounts.addEpsilon gate_entry_lt fun h => ?_
    rw [h, hL, one_mul]

theorem isPart_symbol (t : TerminalId) :
    IsPart graph ((gated graph).addEdge (gate graph).entry t (gate graph).exit) (gate graph)
      {[t]} := by
  refine isPart_of_gated (grows_addEdge gate_entry_lt gate_exit_lt) ?_ fun L hL => ?_
  · rintro word rfl
    exact Path.read ((mem_targets_addEdge gate_entry_lt).mpr (Or.inr ⟨rfl, rfl, rfl⟩))
      (.refl _)
  · refine ⟨L, fun n _ => rfl, fun n hn => ?_⟩
    refine (isDeadEnd_gated (size_le_of_gated hn)).accounts.addEdge gate_entry_lt fun h => ?_
    rw [h, hL]

theorem isPart_concat {last : NodeId}
    (hchain : IsChain (gated graph) graph' (gate graph).entry last A) :
    IsPart graph (graph'.addEpsilon last (gate graph).exit) (gate graph) A := by
  have hexit : (gate graph).exit < graph'.size := gate_exit_lt.trans_le hchain.grows.size_le
  refine isPart_of_gated ?_ (fun word hword => ?_) fun L hL => ?_
  · refine hchain.grows.trans (grows_addEpsilon hchain.last_lt hexit) fun n hn h => ?_
    rcases hchain.last_eq_or_size_le with hlast | hlast
    · exact h.trans hlast
    · exact absurd (h ▸ hn) (Nat.not_lt.mpr hlast)
  · have hpath := (hchain.complete word hword).grow (grows_addEpsilon hchain.last_lt hexit)
    rw [← List.append_nil word]
    exact hpath.trans (Path.epsilon ((mem_epsilons_addEpsilon hchain.last_lt).mpr
      (Or.inr ⟨rfl, rfl⟩)) (.refl _))
  · obtain ⟨L', hsame, hlast, haccounts⟩ := hchain.sound L (L (gate graph).exit) hL
    refine ⟨L', hsame, fun n hn => ?_⟩
    refine (haccounts n hn).addEpsilon hchain.last_lt fun h => ?_
    rw [h, hlast, hsame _ gate_exit_lt]

theorem isPart_union (hbranches : AreBranches (gated graph) graph' (gate graph) A) :
    IsPart graph graph' (gate graph) A := by
  refine isPart_of_gated hbranches.grows hbranches.complete fun L hL => ?_
  exact hbranches.sound L hL.ge (isDeadEnd_gated (Nat.le_refl _)).accounts

/-- The epsilon edges that lead into, past, around and out of the part of a repetition. -/
def loopEdges (outer part : Gate) : List (NodeId × NodeId) :=
  [(outer.entry, part.entry), (outer.entry, outer.exit), (part.exit, part.entry),
    (part.exit, outer.exit)]

theorem path_addEpsilons_loopEdges {outer part : Gate}
    (hends : ∀ edge ∈ loopEdges outer part, edge.1 < graph'.size ∧ edge.2 < graph'.size)
    (hpart : ∀ word ∈ A, graph'.Path part.entry word part.exit) :
    ∀ word ∈ A∗, (graph'.addEpsilons (loopEdges outer part)).Path outer.entry word outer.exit := by
  intro word hword
  have hedge : ∀ {n m : NodeId}, (n, m) ∈ loopEdges outer part →
      m ∈ (graph'.addEpsilons (loopEdges outer part)).epsilons n :=
    fun h => (mem_epsilons_addEpsilons hends).mpr (Or.inr h)
  have hinner : ∀ word ∈ A,
      (graph'.addEpsilons (loopEdges outer part)).Path part.entry word part.exit :=
    fun word hword => (hpart word hword).grow (grows_addEpsilons hends)
  -- what can be read behind the inner part contains any number of its words
  let after : Language TerminalId :=
    {word | (graph'.addEpsilons (loopEdges outer part)).Path part.exit word outer.exit}
  have hdone : 1 ≤ after := by
    rintro word rfl
    exact Path.epsilon (hedge (by simp [loopEdges])) (.refl _)
  have hagain : A * after ≤ after := by
    rintro _ ⟨here, hhere, rest, hrest, rfl⟩
    exact Path.epsilon (hedge (by simp [loopEdges])) ((hinner here hhere).trans hrest)
  rw [← Language.one_add_self_mul_kstar_eq_kstar] at hword
  rcases hword with rfl | ⟨here, hhere, rest, hrest, rfl⟩
  · exact Path.epsilon (hedge (by simp [loopEdges])) (.refl _)
  · exact Path.epsilon (hedge (by simp [loopEdges]))
      ((hinner here hhere).trans (kstar_le_of_mul_le_right hdone hagain hrest))

theorem accounts_addEpsilons_loopEdges {outer part : Gate} {L : NodeId → Language TerminalId}
    {n : NodeId} (hL : graph'.Accounts L n)
    (hends : ∀ edge ∈ loopEdges outer part, edge.1 < graph'.size ∧ edge.2 < graph'.size)
    (houter : L outer.entry = A∗ * L outer.exit)
    (hentry : L part.entry = A * (A∗ * L outer.exit)) (hexit : L part.exit = A∗ * L outer.exit) :
    (graph'.addEpsilons (loopEdges outer part)).Accounts L n := by
  have hround : L part.entry ≤ A∗ * L outer.exit := by
    rw [hentry, ← mul_assoc]
    exact mul_le_mul_left mul_kstar_le_kstar _
  have hpast : L outer.exit ≤ A∗ * L outer.exit :=
    calc
      L outer.exit = 1 * L outer.exit := (one_mul _).symm
      _ ≤ A∗ * L outer.exit := mul_le_mul_left one_le_kstar _
  refine hL.addEpsilons hends fun m hm => ?_
  simp only [loopEdges, List.mem_cons, Prod.mk.injEq, List.not_mem_nil, or_false] at hm
  rcases hm with ⟨rfl, rfl⟩ | ⟨rfl, rfl⟩ | ⟨rfl, rfl⟩ | ⟨rfl, rfl⟩
  · exact hround.trans houter.ge
  · exact hpast.trans houter.ge
  · exact hround.trans hexit.ge
  · exact hpast.trans hexit.ge

theorem isPart_star {part : Gate} (hpart : IsPart (gated graph) graph' part A) :
    IsPart graph (graph'.addEpsilons (loopEdges (gate graph) part)) (gate graph) A∗ := by
  have hentry : (gate graph).entry < graph'.size := gate_entry_lt.trans_le hpart.grows.size_le
  have hexit : (gate graph).exit < graph'.size := gate_exit_lt.trans_le hpart.grows.size_le
  have hends : ∀ edge ∈ loopEdges (gate graph) part,
      edge.1 < graph'.size ∧ edge.2 < graph'.size := by
    simp [loopEdges, hentry, hexit, hpart.entry_lt, hpart.exit_lt]
  refine isPart_of_gated ?_ (path_addEpsilons_loopEdges hends hpart.complete) fun L hL => ?_
  · refine (hpart.grows.mono fun _ => False.elim).trans (grows_addEpsilons hends)
      fun n hn hsource => ?_
    have hne : n ≠ part.exit := fun h => absurd (h ▸ hn) (Nat.not_lt.mpr hpart.size_le_exit)
    simpa [loopEdges, hne] using hsource
  · obtain ⟨L', hsame, hpartEntry, hpartExit, haccounts⟩ :=
      hpart.sound L (A∗ * L (gate graph).exit)
    have hgateEntry := (hsame _ gate_entry_lt).trans hL
    have hgateExit : L' (gate graph).exit = L (gate graph).exit := hsame _ gate_exit_lt
    rw [← hgateExit] at hpartEntry hpartExit hgateEntry
    refine ⟨L', hsame, fun n hn => ?_⟩
    refine accounts_addEpsilons_loopEdges ?_ hends hgateEntry hpartEntry hpartExit
    rcases hn with rfl | hn
    · exact ((isDeadEnd_gated (Nat.le_refl _)).grow hpart.grows gate_entry_lt not_false).accounts
    · exact haccounts n hn

/-! ## Chains and branches -/

variable {graph₁ graph₂ : Graph} {B : Language TerminalId} {part : Gate}

theorem isChain_nil {first : NodeId} (hfirst : first < graph.size)
    (hdead : graph.IsDeadEnd first) : IsChain graph graph first first 1 where
  grows := Grows.refl graph
  last_eq_or_size_le := Or.inl rfl
  last_lt := hfirst
  isDeadEnd := hdead
  complete := by
    rintro word rfl
    exact .refl _
  sound L K hL := by
    rw [one_mul] at hL
    refine ⟨L, fun n _ => rfl, hL, fun n hn => ?_⟩
    rcases hn with rfl | hn
    · exact hdead.accounts
    · exact (isDeadEnd_of_size_le hn).accounts

theorem isChain_cons {first last : NodeId} (hb : graph.IsBounded) (hfirst : first < graph.size)
    (hdead : graph.IsDeadEnd first) (hpart : IsPart graph graph₁ part A)
    (hchain : IsChain (graph₁.addEpsilon first part.entry) graph₂ part.exit last B) :
    IsChain graph graph₂ first last (A * B) := by
  have hfirst₁ := hfirst.trans_le hpart.grows.size_le
  have hlink := grows_addEpsilon hfirst₁ hpart.entry_lt
  have hb₁ := hlink.isBounded (hpart.grows.isBounded hb)
  have hbefore : ∀ {n : NodeId}, n < graph.size → n ≠ part.exit := fun hn h =>
    absurd (h ▸ hn) (Nat.not_lt.mpr hpart.size_le_exit)
  have hlast : last = part.exit ∨ graph₁.size ≤ last := by
    simpa using hchain.last_eq_or_size_le
  refine
    { grows := ((hpart.grows.mono fun _ => False.elim).trans hlink fun n _ h => h).trans
        hchain.grows fun n hn h => absurd h (hbefore hn)
      last_eq_or_size_le := Or.inr ?_
      last_lt := hchain.last_lt
      isDeadEnd := hchain.isDeadEnd
      complete := ?_
      sound := fun L K hL => ?_ }
  · rcases hlast with rfl | hlast
    · exact hpart.size_le_exit
    · exact hpart.grows.size_le.trans hlast
  · rintro _ ⟨here, hhere, rest, hrest, rfl⟩
    have hpath := ((hpart.complete here hhere).grow hlink).grow hchain.grows
    refine Path.epsilon (hchain.grows.epsilons_sub first ?_)
      (hpath.trans (hchain.complete rest hrest))
    exact (mem_epsilons_addEpsilon hfirst₁).mpr (Or.inr ⟨rfl, rfl⟩)
  · obtain ⟨L₁, hsame₁, hentry, hexit, haccounts₁⟩ := hpart.sound L (B * K)
    obtain ⟨L₂, hsame₂, hend, haccounts₂⟩ := hchain.sound L₁ K hexit
    refine ⟨L₂, fun n hn => ?_, hend, fun n hn => ?_⟩
    · rw [hsame₂ n (by simpa using hn.trans_le hpart.grows.size_le), hsame₁ n hn]
    · by_cases hlater : n = part.exit ∨ (graph₁.addEpsilon first part.entry).size ≤ n
      · exact haccounts₂ n hlater
      · -- the edges of the first state and of the part are known before the rest is built
        obtain ⟨hne, hn₁⟩ := not_or.mp hlater
        refine Accounts.grow ?_ hchain.grows hb₁ hsame₂ (Nat.lt_of_not_le hn₁) hne
        have hpartial : graph₁.Accounts L₁ n := by
          rcases hn with rfl | hn
          · exact (hdead.grow hpart.grows hfirst not_false).accounts
          · exact haccounts₁ n hn
        refine hpartial.addEpsilon hfirst₁ ?_
        rintro rfl
        rw [hentry, hsame₁ n hfirst, hL, mul_assoc]

theorem areBranches_nil (gate : Gate) : AreBranches graph graph gate 0 where
  grows := Grows.refl graph
  complete word hword := absurd hword (Language.notMem_zero word)
  sound L _ hentry := by
    refine ⟨L, fun n _ => rfl, fun n hn => ?_⟩
    rcases hn with rfl | hn
    · exact hentry
    · exact (isDeadEnd_of_size_le hn).accounts

/-- The epsilon edges that join a branch to the entry and to the exit. -/
def branchEdges (outer part : Gate) : List (NodeId × NodeId) :=
  [(outer.entry, part.entry), (part.exit, outer.exit)]

theorem areBranches_cons {outer : Gate} (hb : graph.IsBounded) (hentry : outer.entry < graph.size)
    (hexit : outer.exit < graph.size) (hpart : IsPart graph graph₁ part A)
    (hrest : AreBranches (graph₁.addEpsilons (branchEdges outer part)) graph₂ outer B) :
    AreBranches graph graph₂ outer (A + B) := by
  have hentry₁ := hentry.trans_le hpart.grows.size_le
  have hends : ∀ edge ∈ branchEdges outer part, edge.1 < graph₁.size ∧ edge.2 < graph₁.size := by
    simp [branchEdges, hentry₁, hexit.trans_le hpart.grows.size_le, hpart.entry_lt, hpart.exit_lt]
  have hlinks := grows_addEpsilons hends
  have hb₁ := hlinks.isBounded (hpart.grows.isBounded hb)
  have hedge : ∀ {n m : NodeId}, (n, m) ∈ branchEdges outer part →
      m ∈ (graph₁.addEpsilons (branchEdges outer part)).epsilons n :=
    fun h => (mem_epsilons_addEpsilons hends).mpr (Or.inr h)
  have hgrows : graph.Grows (graph₁.addEpsilons (branchEdges outer part)) (· = outer.entry) := by
    refine (hpart.grows.mono fun _ => False.elim).trans hlinks fun n hn hsource => ?_
    have hne : n ≠ part.exit := fun h => absurd (h ▸ hn) (Nat.not_lt.mpr hpart.size_le_exit)
    simpa [branchEdges, hne] using hsource
  refine
    { grows := hgrows.trans hrest.grows fun n _ h => h
      complete := fun word hword => ?_
      sound := fun L hL haccounts => ?_ }
  · rcases hword with hword | hword
    · have hpath := (hpart.complete word hword).grow hlinks
      rw [← List.append_nil word]
      refine Path.grow hrest.grows (Path.epsilon (hedge (by simp [branchEdges])) (hpath.trans ?_))
      exact Path.epsilon (hedge (by simp [branchEdges])) (.refl _)
    · exact hrest.complete word hword
  · obtain ⟨L₁, hsame₁, hpartEntry, hpartExit, haccounts₁⟩ := hpart.sound L (L outer.exit)
    rw [add_mul] at hL
    have hbranch : ∀ n, n = outer.entry ∨ graph.size ≤ n →
        (graph₁.addEpsilons (branchEdges outer part)).Accounts L₁ n := by
      intro n hn
      have hpartial : graph₁.Accounts L₁ n := by
        rcases hn with rfl | hn
        · exact haccounts.grow hpart.grows hb hsame₁ hentry not_false
        · exact haccounts₁ n hn
      refine hpartial.addEpsilons hends fun m hm => ?_
      simp only [branchEdges, List.mem_cons, Prod.mk.injEq, List.not_mem_nil, or_false] at hm
      rcases hm with ⟨rfl, rfl⟩ | ⟨rfl, rfl⟩
      · rw [hpartEntry, hsame₁ _ hentry]
        exact le_self_add.trans hL
      · rw [hpartExit, hsame₁ _ hexit]
    obtain ⟨L₂, hsame₂, haccounts₂⟩ := hrest.sound L₁
      (by rw [hsame₁ _ hexit, hsame₁ _ hentry]; exact le_add_self.trans hL)
      (hbranch _ (Or.inl rfl))
    refine ⟨L₂, fun n hn => ?_, fun n hn => ?_⟩
    · rw [hsame₂ n (hn.trans_le hgrows.size_le), hsame₁ n hn]
    · by_cases hlater : n = outer.entry ∨ (graph₁.addEpsilons (branchEdges outer part)).size ≤ n
      · exact haccounts₂ n hlater
      · obtain ⟨hne, hn₁⟩ := not_or.mp hlater
        exact (hbranch n hn).grow hrest.grows hb₁ hsame₂ (Nat.lt_of_not_le hn₁) hne

/-! ## All expressions -/

theorem isBounded_gated (hb : graph.IsBounded) : (gated graph).IsBounded :=
  (grows_gated graph).isBounded hb

mutual

/-- What is built for an expression reads the words that it denotes. -/
theorem isPart_build {graph : Graph} (hb : graph.IsBounded) (r : Regex) :
    IsPart graph (build graph r).2 (build graph r).1 r.language := by
  match r with
  | epsilon =>
    rw [language, build]
    exact isPart_epsilon
  | symbol t =>
    rw [language, build]
    exact isPart_symbol t
  | concat parts =>
    rw [language, build]
    exact isPart_concat
      (isChain_buildChain (isBounded_gated hb) gate_entry_lt (isDeadEnd_gated (Nat.le_refl _)) parts)
  | union alternatives =>
    rw [language, build]
    exact isPart_union
      (areBranches_buildBranches (isBounded_gated hb) gate_entry_lt gate_exit_lt alternatives)
  | star inner =>
    rw [language, build]
    exact isPart_star (isPart_build (isBounded_gated hb) inner)

theorem isChain_buildChain {graph : Graph} {first : NodeId} (hb : graph.IsBounded)
    (hfirst : first < graph.size) (hdead : graph.IsDeadEnd first) (rs : List Regex) :
    IsChain graph (buildChain graph first rs).2 first (buildChain graph first rs).1
      (chainLanguage rs) := by
  match rs with
  | [] =>
    rw [chainLanguage, buildChain]
    exact isChain_nil hfirst hdead
  | r :: rs =>
    rw [chainLanguage, buildChain]
    have hpart := isPart_build hb r
    have hlink := grows_addEpsilon (hfirst.trans_le hpart.grows.size_le) hpart.entry_lt
    refine isChain_cons hb hfirst hdead hpart (isChain_buildChain
      (hlink.isBounded (hpart.grows.isBounded hb)) (hpart.exit_lt.trans_le hlink.size_le)
      (hpart.isDeadEnd.grow hlink hpart.exit_lt fun h => ?_) rs)
    exact absurd (h ▸ hfirst) (Nat.not_lt.mpr hpart.size_le_exit)

theorem areBranches_buildBranches {graph : Graph} {outer : Gate} (hb : graph.IsBounded)
    (hentry : outer.entry < graph.size) (hexit : outer.exit < graph.size) (rs : List Regex) :
    AreBranches graph (buildBranches graph outer rs) outer (choiceLanguage rs) := by
  match rs with
  | [] =>
    rw [choiceLanguage, buildBranches]
    exact areBranches_nil outer
  | r :: rs =>
    rw [choiceLanguage, buildBranches]
    have hpart := isPart_build hb r
    have hends : ∀ edge ∈ branchEdges outer (build graph r).1,
        edge.1 < (build graph r).2.size ∧ edge.2 < (build graph r).2.size := by
      simp [branchEdges, hentry.trans_le hpart.grows.size_le,
        hexit.trans_le hpart.grows.size_le, hpart.entry_lt, hpart.exit_lt]
    have hlinks := grows_addEpsilons hends
    have hsize := hpart.grows.size_le.trans hlinks.size_le
    exact areBranches_cons hb hentry hexit hpart (areBranches_buildBranches
      (hlinks.isBounded (hpart.grows.isBounded hb)) (hentry.trans_le hsize)
      (hexit.trans_le hsize) rs)

end

/-- The automaton of an expression has paths for the words that it denotes. -/
theorem hasWord_toGraph_iff {r : Regex} {word : List TerminalId} :
    r.toGraph.HasWord word ↔ word ∈ r.language := by
  have hpart : IsPart (ofRoot () false) _ _ r.language := isPart_build isBounded_ofRoot r
  have hroot : root < (build (ofRoot () false) r).2.size :=
    Nat.one_pos.trans_le hpart.grows.size_le
  have hlink := grows_addEpsilon hroot hpart.entry_lt
  have hfinal : ∀ n, r.toGraph.isFinal n = true ↔ n = (build (ofRoot () false) r).1.exit := by
    intro n
    rw [toGraph, isFinal_setFinal (hpart.exit_lt.trans_le hlink.size_le), hlink.isFinal_eq,
      hpart.grows.isFinal_eq, isFinal_ofRoot]
    simp
  rw [HasWord]
  simp only [hfinal, exists_eq_left]
  rw [toGraph, path_setFinal_iff]
  constructor
  · intro hpath
    obtain ⟨L, hold, hentry, hexit, haccounts⟩ := hpart.sound (fun _ => r.language) 1
    have hedges : ∀ n, ((build (ofRoot () false) r).2.addEpsilon root
        (build (ofRoot () false) r).1.entry).Accounts L n := by
      intro n
      have hbuilt : (build (ofRoot () false) r).2.Accounts L n := by
        by_cases hn : n = root
        · rw [hn]
          exact (isDeadEnd_ofRoot.grow hpart.grows Nat.one_pos not_false).accounts
        · exact haccounts n (Nat.pos_of_ne_zero hn)
      refine hbuilt.addEpsilon hroot fun h => ?_
      rw [hentry, mul_one, h, hold root Nat.one_pos]
    have hmem := append_mem_of_path hedges hpath (by rw [hexit]; exact Language.nil_mem_one)
    rwa [List.append_nil, hold root Nat.one_pos] at hmem
  · intro hword
    exact Path.epsilon ((mem_epsilons_addEpsilon hroot).mpr (Or.inr ⟨rfl, rfl⟩))
      ((hpart.complete word hword).grow hlink)

theorem isBounded_toGraph (r : Regex) : r.toGraph.IsBounded := by
  have hpart : IsPart (ofRoot () false) _ _ r.language := isPart_build isBounded_ofRoot r
  have hroot : root < (build (ofRoot () false) r).2.size :=
    Nat.one_pos.trans_le hpart.grows.size_le
  have hlink := grows_addEpsilon hroot hpart.entry_lt
  exact (hlink.isBounded (hpart.grows.isBounded isBounded_ofRoot)).setFinal

/-- An expression matches the words that it denotes. -/
theorem isMatch_iff_mem_language {r : Regex} {word : List TerminalId} :
    r.isMatch word = true ↔ word ∈ r.language := by
  rw [isMatch, recognizes_iff_hasWord (isBounded_toGraph r), hasWord_toGraph_iff]

/-! ## Both automata of an expression -/

/-- Reading words with the automaton of an expression comes to an end, subset construction does,
and so does reading words with the automaton that it gives.  Both automata recognize exactly the
words that the expression denotes. -/
theorem matching_exact (r : Regex) :
    r.toGraph.RecognitionEnds ∧
    Explores r.toGraph.expandSubset (fun followers => followers.map Prod.snd) []
      [r.toGraph.startStates] r.toGraph.subsets ∧
    r.toGraph.determinize.RecognitionEnds ∧
    ∀ word, (r.isMatch word = true ↔ word ∈ r.language) ∧
      (r.toGraph.determinize.recognizes word = true ↔ word ∈ r.language) := by
  have hbounded := isBounded_toGraph r
  refine ⟨hbounded.recognitionEnds, explores_subsets hbounded,
    (isBounded_determinize hbounded).recognitionEnds, fun word => ⟨isMatch_iff_mem_language, ?_⟩⟩
  rw [recognizes_determinize hbounded]
  exact isMatch_iff_mem_language

/-- A repetition of the empty union matches the empty word, which a part of the concatenation
behind it rules out. -/
example : (star (union [])).isMatch [] = true ∧
    (concat [star (union []), concat [symbol 1]]).isMatch [] = false := by decide

end GrammarAnalysis.Regex

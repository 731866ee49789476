import ContextFree.Proofs.StageResults

/-!
# Rounds to the end

Four stages look for something to do, do it and look again, with a bound on the number of rounds. `Rounds` is the
same loop without a bound, which ends only when nothing is found. On a consistent grammar it does end, within the
bound, and the rounds can be counted before the first of them: from the symbols and the rules of the grammar.
-/

namespace ContextFree

variable {α : Type} {find : Grammar → Option α} {act : List α → α → Edit Unit} {past past' picked : List α}
  {g g' : Grammar}

/-- A loop that has run to its end: each round acted on what was found, and nothing is found in the end. The first
list is what was acted on before, the second what was acted on in the loop. -/
inductive Rounds (find : Grammar → Option α) (act : List α → α → Edit Unit) :
    List α → Grammar → List α → Grammar → Prop where
  | done {past : List α} {g : Grammar} (nothing : find g = none) : Rounds find act past g [] g
  | round {past later : List α} {a : α} {g g₁ g' : Grammar} (found : find g = some a)
      (acted : act past a g = .ok () g₁) (rest : Rounds find act (past ++ [a]) g₁ later g') :
      Rounds find act past g (a :: later) g'

lemma Rounds.of_exhaust {bound : Nat} (hrun : Edit.exhaust find act bound past g = .ok past' g')
    (hnone : find g' = none) : ∃ picked, past' = past ++ picked ∧ Rounds find act past g picked g' := by
  induction bound generalizing past g with
  | zero =>
    cases hrun
    exact ⟨[], by simp, .done hnone⟩
  | succ bound ih =>
    have hget : (MonadState.get : Edit Grammar) g = .ok g g := rfl
    rw [Edit.exhaust, bind_of_ok hget] at hrun
    cases hfind : find g with
    | none =>
      rw [hfind] at hrun
      cases hrun
      exact ⟨[], by simp, .done hfind⟩
    | some a =>
      simp only [hfind] at hrun
      cases hact : act past a g with
      | error e g₁ =>
        rw [bind_of_error hact] at hrun
        cases hrun
      | ok _ g₁ =>
        rw [bind_of_ok hact] at hrun
        obtain ⟨later, rfl, hrest⟩ := ih hrun
        exact ⟨a :: later, by simp, .round hfind hact hrest⟩

/-- A bounded loop that is known to leave nothing to be found is a loop that has run to its end. -/
lemma Succeeds.exists_rounds {bound : Nat} {loop : Edit (List α)} {post : List α → Grammar → Prop}
    (hloop : loop g = Edit.exhaust find act bound [] g) (h : Succeeds loop g post)
    (hnone : ∀ picked g', post picked g' → find g' = none) :
    ∃ picked g', loop g = .ok picked g' ∧ Rounds find act [] g picked g' ∧ post picked g' := by
  obtain ⟨past', g', hrun, hpost⟩ := h
  obtain ⟨picked, hpicked, hrounds⟩ := Rounds.of_exhaust (hloop ▸ hrun) (hnone _ _ hpost)
  rw [List.nil_append] at hpicked
  subst hpicked
  exact ⟨past', g', hrun, hrounds, hpost⟩

lemma internal_discard_eq {edit : Edit α} {a : α} (h : edit g = .ok a g') :
    Edit.internal (discard edit) g = .ok () g' := by
  have hdiscard : Succeeds (discard edit) g fun _ k => k = g' := Succeeds.discard ⟨a, g', h, rfl⟩
  obtain ⟨_, k, hk, rfl⟩ := hdiscard.internal
  exact hk

namespace Grammar

/-! ### Erasure -/

lemma Erasing.length_past_lt {past : List Symbol} (h : Erasing g past g') (hg : g.Consistent) :
    past.length < g.nonterminals.length := by
  have hnodup : (g.start :: past).Nodup :=
    List.nodup_cons.mpr ⟨fun hmem => (h.past_vanishing _ hmem).ne_start rfl, h.past_nodup⟩
  have hsub : ∀ s ∈ g.start :: past, s ∈ g.nonterminals := by
    intro s hs
    rcases List.mem_cons.mp hs with rfl | hs
    · exact hg.start_mem
    · exact (h.past_vanishing s hs).mem_nonterminals hg
  have hle := (hnodup.subperm hsub).length_le
  rw [List.length_cons] at hle
  omega

lemma Consistent.exists_erasure_rounds (hg : g.Consistent) :
    ∃ picked g', eraseErasable g = .ok picked g' ∧ Rounds erasable? eraseSymbol [] g picked g' ∧
      picked.Nodup ∧ (∀ a ∈ picked, a ∈ g.nonterminals ∧ a ≠ g.start) ∧
      picked.length + 1 ≤ g.nonterminals.length := by
  obtain ⟨picked, g', hok, hrounds, -, herasing, -⟩ :=
    hg.succeeds_eraseErasable.exists_rounds rfl fun _ _ hpost => hpost.2.2
  refine ⟨picked, g', hok, hrounds, herasing.past_nodup, ?_, herasing.length_past_lt hg⟩
  intro a ha
  have hvanishing := herasing.past_vanishing a ha
  exact ⟨hvanishing.mem_nonterminals hg, hvanishing.ne_start⟩

/-! ### Isolation -/

lemma Consistent.nodup_mixedTerminals (hg : g.Consistent) : g.mixedTerminals.Nodup :=
  hg.terminals_nodup.filter _

lemma IsolationStep.perm_mixedTerminals {t z : Symbol} {past : List Symbol} (h : IsolationStep t z g g')
    (ht : t ∈ g.mixedTerminals) : (past ++ [t] ++ g'.mixedTerminals).Perm (past ++ g.mixedTerminals) := by
  have hrest : g'.mixedTerminals = g.mixedTerminals.erase t := by
    rw [h.mixedTerminals_eq, h.consistent.nodup_mixedTerminals.erase_eq_filter]
  rw [List.append_assoc, hrest]
  exact (List.perm_cons_erase ht).symm.append_left past

lemma Consistent.exists_isolation_rounds (hg : g.Consistent) :
    ∃ picked g', isolateMixed g = .ok picked g' ∧
      Rounds mixedTerminal? (fun _ t => isolateTerminal t) [] g picked g' ∧ picked.Perm g.mixedTerminals := by
  have hrun := hg.succeeds_isolateMixed (fun past h => (past ++ h.mixedTerminals).Perm g.mixedTerminals)
    (List.Perm.refl _) fun past t z h h' ht hround hinv => (hround.perm_mixedTerminals ht).trans hinv
  obtain ⟨picked, g', hok, hrounds, hg', hperm, hnone⟩ := hrun.exists_rounds rfl fun _ _ hpost => hpost.2.2
  rw [mixedTerminals_eq_nil (hg'.terminalsAlone hnone), List.append_nil] at hperm
  exact ⟨picked, g', hok, hrounds, hperm⟩

/-! ### Splitting -/

lemma RulesShort.splitCount_eq_zero (h : g.RulesShort) : g.splitCount = 0 := by
  rw [splitCount_eq, List.sum_eq_zero_iff]
  intro n hn
  obtain ⟨r, hr, rfl⟩ := List.mem_map.mp hn
  have hlength := h r hr
  omega

lemma Consistent.exists_splitting_rounds (hg : g.Consistent) :
    ∃ picked g', splitLong g = .ok picked g' ∧ Rounds longRule? (fun _ r => splitRule r) [] g picked g' ∧
      picked.length = g.splitCount := by
  have hrun := hg.succeeds_splitLong (fun past h => past.length + h.splitCount = g.splitCount) (by simp) ?_
  · obtain ⟨picked, g', hok, hrounds, -, hcount, hnone⟩ := hrun.exists_rounds rfl fun _ _ hpost => hpost.2.2
    rw [(rulesShort hnone).splitCount_eq_zero] at hcount
    exact ⟨picked, g', hok, hrounds, hcount⟩
  · intro past r s rest z h h' hlong hround hinv
    have hone := hround.splitCount_add_one hlong
    rw [List.length_append, List.length_singleton]
    omega

/-! ### Dead ends -/

lemma Consistent.exists_deadEnd_rounds (hg : g.Consistent) :
    ∃ picked g', removeDeadEnds g = .ok picked g' ∧
      Rounds deadEnds? (fun _ found => found.forM removeDeadEnd) [] g picked g' ∧
      picked.length + 1 ≤ g.nonterminals.length := by
  obtain ⟨picked, g', hok, hrounds, hg', -, -, hcount, -⟩ :=
    hg.succeeds_removeDeadEnds.exists_rounds rfl fun _ _ hpost => hpost.2.2.2.2
  have hstart := List.length_pos_of_mem hg'.start_mem
  exact ⟨picked, g', hok, hrounds, by omega⟩

/-! ### Walks -/

lemma Consistent.walk_unitSuccessors_eq {n : Symbol} {steps : Nat} (hg : g.Consistent) (hn : n ∈ g.nonterminals)
    (hsteps : g.nonterminals.length ≤ steps) :
    BreadthFirst.walk g.unitSuccessors steps [] [n] = n :: g.unitClosure n := by
  rw [(BreadthFirst.Walking.begin hn).walk_eq_of_le (fun _ _ _ hm => (hg.mem_unitSuccessors.mp hm).2) (by simp)
    hsteps]
  obtain ⟨rest, hrest⟩ := BreadthFirst.append_isPrefix_walk g.unitSuccessors g.nonterminals.length [] [n]
  rw [unitClosure, ← hrest]
  rfl

lemma Consistent.walk_successors_eq {steps : Nat} (hg : g.Consistent) (hsteps : g.nonterminals.length ≤ steps) :
    BreadthFirst.walk g.successors steps [] [g.start] = g.reachable :=
  (BreadthFirst.Walking.begin hg.start_mem).walk_eq_of_le (fun _ _ _ hm => (hg.mem_successors.mp hm).1) (by simp)
    hsteps

/-- The loops of the stages end by themselves. Erasure picks no symbol twice and never the start symbol; isolation
has a round for every terminal that shares a right side, and splitting has as many as right sides have symbols above
two; and dead ends are looked for at most as often as there are nonterminals, the last time in vain. Walks along rules
come upon nothing new when they have taken as many steps as there are nonterminals. -/
theorem stages_end_after_counted_rounds (hg : g.Consistent) :
    (∃ picked g', eraseErasable g = .ok picked g' ∧ eraseEpsilons g = .ok () g' ∧
      Rounds erasable? eraseSymbol [] g picked g' ∧ picked.Nodup ∧
      (∀ a ∈ picked, a ∈ g.nonterminals ∧ a ≠ g.start) ∧ picked.length + 1 ≤ g.nonterminals.length) ∧
    (∃ picked g', isolateMixed g = .ok picked g' ∧ isolateTerminals g = .ok () g' ∧
      Rounds mixedTerminal? (fun _ t => isolateTerminal t) [] g picked g' ∧
      picked.toFinset = {t ∈ g.terminals.toFinset | ∃ r ∈ g.rules, 2 ≤ r.right.length ∧ t ∈ r.right} ∧
      picked.length = picked.toFinset.card) ∧
    (∃ picked g', splitLong g = .ok picked g' ∧ splitRules g = .ok () g' ∧
      Rounds longRule? (fun _ r => splitRule r) [] g picked g' ∧
      picked.length = (g.rules.map fun r => r.right.length - 2).sum) ∧
    (∃ picked g', removeDeadEnds g = .ok picked g' ∧
      Rounds deadEnds? (fun _ found => found.forM removeDeadEnd) [] g picked g' ∧
      picked.length + 1 ≤ g.nonterminals.length) ∧
    ∀ steps, g.nonterminals.length ≤ steps →
      (∀ n ∈ g.nonterminals, BreadthFirst.walk g.unitSuccessors steps [] [n] = n :: g.unitClosure n) ∧
      BreadthFirst.walk g.successors steps [] [g.start] = g.reachable := by
  refine ⟨?_, ?_, ?_, hg.exists_deadEnd_rounds, ?_⟩
  · obtain ⟨picked, g', hrun, hrounds⟩ := hg.exists_erasure_rounds
    exact ⟨picked, g', hrun, internal_discard_eq hrun, hrounds⟩
  · obtain ⟨picked, g', hrun, hrounds, hperm⟩ := hg.exists_isolation_rounds
    have hnodup : picked.Nodup := hperm.nodup_iff.mpr hg.nodup_mixedTerminals
    have hset : picked.toFinset =
        {t ∈ g.terminals.toFinset | ∃ r ∈ g.rules, 2 ≤ r.right.length ∧ t ∈ r.right} := by
      ext t
      rw [List.mem_toFinset, hperm.mem_iff, mem_mixedTerminals_iff, Finset.mem_filter, List.mem_toFinset]
    exact ⟨picked, g', hrun, internal_discard_eq hrun, hrounds, hset, (List.toFinset_card_of_nodup hnodup).symm⟩
  · obtain ⟨picked, g', hrun, hrounds, hcount⟩ := hg.exists_splitting_rounds
    exact ⟨picked, g', hrun, internal_discard_eq hrun, hrounds, hcount.trans (splitCount_eq g)⟩
  · intro steps hsteps
    exact ⟨fun n hn => hg.walk_unitSuccessors_eq hn hsteps, hg.walk_successors_eq hsteps⟩

/-- The symbols `A` and `C` lead to each other and to the empty sequence, and `D` has no rule. -/
def vanishingCycle : List Rule :=
  [⟨"S", ["a", "A", "b", "a"]⟩, ⟨"S", ["D"]⟩, ⟨"A", ["C"]⟩, ⟨"C", ["A"]⟩, ⟨"A", []⟩]

theorem rounds_for_vanishingCycle :
    ∃ g, ofParts "S" ["a", "b", "c"] ["A", "C", "D"] vanishingCycle .standard = .ok g ∧
      (∃ picked g', Rounds erasable? eraseSymbol [] g picked g' ∧ picked.length ≤ 3) ∧
      (∃ picked g', Rounds mixedTerminal? (fun _ t => isolateTerminal t) [] g picked g' ∧ picked.length = 2) ∧
      (∃ picked g', Rounds longRule? (fun _ r => splitRule r) [] g picked g' ∧ picked.length = 2) ∧
      ∃ picked g', Rounds deadEnds? (fun _ found => found.forM removeDeadEnd) [] g picked g' ∧
        picked.length ≤ 3 := by
  obtain ⟨g, hg, hcontents⟩ := ofParts_eq_ok "S" ["a", "b", "c"] ["A", "C", "D"] vanishingCycle .standard
    (by decide) (by decide) (by decide) (by decide) (by decide)
  obtain ⟨-, hterminals, hnonterminals, hrules, -⟩ := Contents.mk.inj hcontents
  obtain ⟨⟨_, _, -, -, hr₁, -, -, hlt₁⟩, ⟨picked, _, -, -, hr₂, hset, hcard⟩, ⟨_, _, -, -, hr₃, hcount⟩,
    ⟨_, _, -, hr₄, hlt₄⟩, -⟩ := stages_end_after_counted_rounds (.ofParts hg)
  rw [hnonterminals] at hlt₁ hlt₄
  rw [hterminals, hrules] at hset
  rw [hrules] at hcount
  have htwo : picked.length = 2 := by
    rw [hcard, hset]
    decide
  exact ⟨g, hg, ⟨_, _, hr₁, Nat.le_of_succ_le_succ hlt₁⟩, ⟨_, _, hr₂, htwo⟩, ⟨_, _, hr₃, hcount⟩,
    ⟨_, _, hr₄, Nat.le_of_succ_le_succ hlt₄⟩⟩

end Grammar

end ContextFree

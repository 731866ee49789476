import ContextFree.Proofs.ConsistentEdits
import ContextFree.Proofs.StageConditions
import ContextFree.Proofs.Walks
import ContextFree.Proofs.Yields

/-!
# Chains of unit rules

After the collapse a nonterminal has the rules that are not unit rules of all nonterminals that chains of unit
rules lead to, and no others. A chain takes part in the derivation of a sequence of terminals only together with
the rule at its end, so such a sequence is derived from the same symbols as before.
-/

namespace ContextFree.Grammar

open BreadthFirst (LeadsTo)

variable {g g' : Grammar} {r : Rule} {m n s : Symbol}

lemma Consistent.isUnit_iff (hg : g.Consistent) : g.isUnit r = true ↔ ∃ s ∈ g.nonterminals, r.right = [s] := by
  unfold isUnit
  split
  · next s h =>
    rw [hg.isNonterminal_iff, h]
    simp
  · next h =>
    simp only [Bool.false_eq_true, false_iff]
    rintro ⟨s, -, hs⟩
    exact h s hs

lemma Consistent.mem_unitSuccessors (hg : g.Consistent) :
    m ∈ g.unitSuccessors n ↔ ⟨n, [m]⟩ ∈ g.rules ∧ m ∈ g.nonterminals := by
  unfold unitSuccessors rulesWithLeft
  simp only [List.mem_flatMap, List.mem_filter, decide_eq_true_eq, hg.isUnit_iff]
  constructor
  · rintro ⟨r, ⟨⟨hr, rfl⟩, s, hs, hright⟩, hm⟩
    obtain rfl : m = s := by simpa [hright] using hm
    exact ⟨by rwa [← hright], hs⟩
  · rintro ⟨hr, hm⟩
    exact ⟨_, ⟨⟨hr, rfl⟩, m, hm, rfl⟩, List.mem_singleton_self m⟩

lemma Consistent.mem_unitClosure (hg : g.Consistent) (hn : n ∈ g.nonterminals) :
    m ∈ g.unitClosure n ↔ m ≠ n ∧ LeadsTo g.unitSuccessors n m :=
  BreadthFirst.mem_tail_walk_iff hn fun _ _ _ hy => (hg.mem_unitSuccessors.mp hy).2

lemma Consistent.leadsTo_unitSuccessors (hg : g.Consistent) : LeadsTo g.unitSuccessors n m ↔
    Relation.ReflTransGen (fun a b => ⟨a, [b]⟩ ∈ g.rules ∧ b ∈ g.nonterminals) n m := by
  have hsteps : (fun a b => b ∈ g.unitSuccessors a) = fun a b => ⟨a, [b]⟩ ∈ g.rules ∧ b ∈ g.nonterminals := by
    funext a b
    rw [hg.mem_unitSuccessors]
  rw [LeadsTo, hsteps]

lemma mem_inheritedRules : r ∈ g.inheritedRules n ↔
    r.left = n ∧ g.isUnit r = false ∧ ∃ m ∈ g.unitClosure n, ⟨m, r.right⟩ ∈ g.rules := by
  unfold inheritedRules rulesWithLeft
  simp only [List.mem_flatMap, List.mem_map, List.mem_filter, decide_eq_true_eq, Bool.not_eq_true']
  constructor
  · rintro ⟨m, hm, o, ⟨⟨ho, rfl⟩, hunit⟩, rfl⟩
    exact ⟨rfl, hunit, o.left, hm, ho⟩
  · rintro ⟨rfl, hunit, m, hm, ho⟩
    exact ⟨m, hm, _, ⟨⟨ho, rfl⟩, hunit⟩, rfl⟩

/-- The rules after the collapse, in terms of those before. -/
structure Collapsed (g g' : Grammar) : Prop where
  rulesOnly : RulesOnly g g'
  mem_rules : ∀ r, r ∈ g'.rules ↔
    g.isUnit r = false ∧ ∃ m, LeadsTo g.unitSuccessors r.left m ∧ ⟨m, r.right⟩ ∈ g.rules

lemma Consistent.left_mem_of_leadsTo (hg : g.Consistent) (hlead : LeadsTo g.unitSuccessors n m)
    (hm : ⟨m, r.right⟩ ∈ g.rules) : n ∈ g.nonterminals := by
  rcases hlead.cases_head with rfl | ⟨k, hk, -⟩
  · exact hg.left_mem _ hm
  · exact hg.left_mem _ (hg.mem_unitSuccessors.mp hk).1

lemma Consistent.succeeds_collapseUnits_listed (hg : g.Consistent) :
    Succeeds collapseUnits g fun _ g' => g'.Consistent ∧ Collapsed g g' ∧
      ∃ added, g'.rules = g.rules.filter (!(g.rules.filter g.isUnit).contains ·) ++ added ∧
        ∀ r ∈ added, r ∉ g.rules := by
  refine Succeeds.internal (Succeeds.get_bind ?_)
  have hinherited : ∀ r ∈ g.nonterminals.flatMap g.inheritedRules,
      r.left ∈ g.nonterminals ∧ ∃ m, ⟨m, r.right⟩ ∈ g.rules := by
    intro r hr
    obtain ⟨n, hn, hr⟩ := List.mem_flatMap.mp hr
    obtain ⟨rfl, -, m, -, hm⟩ := mem_inheritedRules.mp hr
    exact ⟨hn, m, hm⟩
  refine Succeeds.bind (hg.succeeds_insertMissingRules ?_ ?_) ?_
  · exact fun r hr => (hinherited r hr).1
  · intro r hr s hs
    obtain ⟨-, m, hm⟩ := hinherited r hr
    exact hg.right_mem _ hm s hs
  rintro _ g₁ ⟨hg₁, added, hc₁, hadded⟩
  have hrules₁ : g₁.rules = g.rules ++ added := congrArg Contents.rules hc₁
  refine (hg₁.succeeds_eraseRules (hg.rules_nodup.filter _) ?_).mono ?_
  · intro r hr
    rw [hrules₁]
    exact List.mem_append_left _ (List.mem_of_mem_filter hr)
  rintro _ g₂ ⟨hg₂, hc₂⟩
  have hrules₂ : g₂.rules = g₁.rules.filter (!(g.rules.filter g.isUnit).contains ·) :=
    congrArg Contents.rules hc₂
  have hlisted : g₂.rules = g.rules.filter (!(g.rules.filter g.isUnit).contains ·) ++
      added.filter (!(g.rules.filter g.isUnit).contains ·) := by
    rw [hrules₂, hrules₁, List.filter_append]
  refine ⟨hg₂, ⟨?_, fun r => ?_⟩, _, hlisted, fun r hr => ((hadded r).mp (List.mem_of_mem_filter hr)).2⟩
  · unfold RulesOnly
    rw [hrules₂, hc₂, hc₁]
    rfl
  rw [hrules₂, List.mem_filter, hrules₁, List.mem_append, hadded, List.mem_flatMap]
  simp only [Bool.not_eq_true', ← Bool.not_eq_true, List.contains_iff_mem, List.mem_filter, not_and]
  constructor
  · rintro ⟨hr | ⟨⟨n, hn, hr⟩, -⟩, hunit⟩
    · exact ⟨hunit hr, r.left, .refl, hr⟩
    · obtain ⟨rfl, hunit, m, hm, hmem⟩ := mem_inheritedRules.mp hr
      exact ⟨by simp [hunit], m, ((hg.mem_unitClosure hn).mp hm).2, hmem⟩
  · rintro ⟨hunit, m, hlead, hmem⟩
    refine ⟨?_, fun _ => hunit⟩
    by_cases hr : r ∈ g.rules
    · exact .inl hr
    have hn := hg.left_mem_of_leadsTo hlead hmem
    have hne : m ≠ r.left := by
      rintro rfl
      exact hr hmem
    refine .inr ⟨⟨r.left, hn, mem_inheritedRules.mpr ⟨rfl, by simpa using hunit, m, ?_, hmem⟩⟩, hr⟩
    exact (hg.mem_unitClosure hn).mpr ⟨hne, hlead⟩

theorem Consistent.succeeds_collapseUnits (hg : g.Consistent) :
    Succeeds collapseUnits g fun _ g' => g'.Consistent ∧ Collapsed g g' := by
  refine hg.succeeds_collapseUnits_listed.mono ?_
  rintro _ g' ⟨hg', hcollapsed, -⟩
  exact ⟨hg', hcollapsed⟩

/-! ### What the collapse means -/

lemma Consistent.derives_of_leadsTo (hg : g.Consistent) (h : LeadsTo g.unitSuccessors n m) :
    Derives g.rules [n] [m] := by
  induction h with
  | refl => exact .refl _ _
  | tail _ hstep ih => exact ih.trans (Derives.of_mem (hg.mem_unitSuccessors.mp hstep).1)

namespace Collapsed

lemma derives_old (h : Collapsed g g') (hg : g.Consistent) {u w : List Symbol} (hd : Derives g'.rules u w) :
    Derives g.rules u w := by
  refine hd.of_rules fun r hr => ?_
  obtain ⟨-, m, hlead, hmem⟩ := (h.mem_rules r).mp hr
  exact (hg.derives_of_leadsTo hlead).trans (Derives.of_mem hmem)

lemma yields_of_unit (h : Collapsed g g') (hg : g.Consistent) {w : List Symbol} (hmem : ⟨n, [m]⟩ ∈ g.rules)
    (hm : m ∈ g.nonterminals) (hw : ∀ t ∈ w, t ∈ g.terminals) (hy : Yields g'.rules [m] w) :
    Yields g'.rules [n] w := by
  rcases hy.singleton_cases with rfl | ⟨o, ho, rfl, hright⟩
  · exact absurd hm (hg.disjoint (hw m List.mem_cons_self))
  · obtain ⟨hunit, k, hlead, hk⟩ := (h.mem_rules o).mp ho
    have hstep : o.left ∈ g.unitSuccessors n := hg.mem_unitSuccessors.mpr ⟨hmem, hm⟩
    have hnew : ⟨n, o.right⟩ ∈ g'.rules := (h.mem_rules _).mpr ⟨hunit, k, hlead.head hstep, hk⟩
    exact Yields.of_mem hnew hright

lemma yields_new (h : Collapsed g g') (hg : g.Consistent) {u w : List Symbol} (hw : ∀ t ∈ w, t ∈ g.terminals)
    (hy : Yields g.rules u w) : Yields g'.rules u w := by
  refine hy.of_rulewise hw fun r hr v hv _ hinner => ?_
  cases hunit : g.isUnit r with
  | false => exact .of_mem ((h.mem_rules r).mpr ⟨hunit, r.left, .refl, hr⟩) hinner
  | true =>
    obtain ⟨m, hm, hright⟩ := hg.isUnit_iff.mp hunit
    rw [hright] at hinner
    exact h.yields_of_unit hg (by rwa [← hright]) hm hv hinner

lemma generatesFrom_iff (h : Collapsed g g') (hg : g.Consistent) (s : Symbol) (w : List Symbol) :
    g'.GeneratesFrom s w ↔ g.GeneratesFrom s w := by
  unfold GeneratesFrom
  rw [h.rulesOnly.terminals_eq]
  apply and_congr_right
  intro hw
  refine ⟨h.derives_old hg, fun hd => ?_⟩
  exact derives_iff_yields.mpr (h.yields_new hg hw (derives_iff_yields.mp hd))

lemma generates_iff (h : Collapsed g g') (hg : g.Consistent) (w : List Symbol) :
    g'.Generates w ↔ g.Generates w := by
  unfold Generates
  rw [h.rulesOnly.start_eq]
  exact h.generatesFrom_iff hg g.start w

lemma exists_same_right (h : Collapsed g g') (hr : r ∈ g'.rules) : ∃ o ∈ g.rules, o.right = r.right := by
  obtain ⟨-, m, -, hm⟩ := (h.mem_rules r).mp hr
  exact ⟨_, hm, rfl⟩

lemma terminalsAlone (h : Collapsed g g') (halone : g.TerminalsAlone) : g'.TerminalsAlone := by
  intro r hr
  obtain ⟨o, ho, hright⟩ := h.exists_same_right hr
  rw [← hright, h.rulesOnly.terminals_eq]
  exact halone o ho

lemma rulesShort (h : Collapsed g g') (hshort : g.RulesShort) : g'.RulesShort := by
  intro r hr
  obtain ⟨o, ho, hright⟩ := h.exists_same_right hr
  exact hright ▸ hshort o ho

lemma startUnused (h : Collapsed g g') (hstart : g.StartUnused) : g'.StartUnused := by
  intro r hr
  obtain ⟨o, ho, hright⟩ := h.exists_same_right hr
  rw [← hright, h.rulesOnly.start_eq]
  exact hstart o ho

lemma epsilonAtStart (h : Collapsed g g') (hg : g.Consistent) (hstart : g.StartUnused)
    (hepsilon : g.EpsilonAtStart) : g'.EpsilonAtStart := by
  intro r hr hright
  obtain ⟨-, m, hlead, hm⟩ := (h.mem_rules r).mp hr
  obtain rfl : m = g.start := hepsilon _ hm hright
  rw [h.rulesOnly.start_eq]
  rcases hlead.cases_tail with heq | ⟨k, -, hstep⟩
  · exact heq.symm
  · exact absurd (List.mem_singleton_self _) (hstart _ (hg.mem_unitSuccessors.mp hstep).1)

lemma unitFree (h : Collapsed g g') (hg : g.Consistent) : g'.UnitFree := by
  intro r hr s hright hs
  obtain ⟨hunit, -⟩ := (h.mem_rules r).mp hr
  rw [h.rulesOnly.nonterminals_eq] at hs
  simp [hg.isUnit_iff.mpr ⟨s, hs, hright⟩] at hunit

end Collapsed

end ContextFree.Grammar

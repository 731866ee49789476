import ContextFree.Proofs.Attainability
import ContextFree.Proofs.EpsilonErasure
import ContextFree.Proofs.UnitChains
import Mathlib.Data.Finset.Union
import Mathlib.Data.List.Sublists

/-!
# Elimination rule by rule

Unwanted rules can be removed one at a time: pick any of them, add the rules that make up for it, remove it, and go
on while there is another. A round may bring back a rule that was removed before, so this need not come to an end,
and every order of picking is another run. But all runs of the elimination of unit rules that do end, end in the
rules that the collapse of unit rules leaves; and all runs of the elimination of epsilon rules that do end, end in
the rules that erasure leaves, though it remembers which symbols it has dealt with and they do not.
-/

namespace ContextFree

/-- Which rules have to go, and which rules make up for one of them. -/
structure Elimination where
  unwanted : Rule → Prop
  substitutes : Finset Rule → Rule → Finset Rule

namespace Elimination

/-- One round: the substitutes of a rule come, loops apart, and the rule goes. -/
def round (elimination : Elimination) (rules : Finset Rule) (r : Rule) : Finset Rule :=
  (rules ∪ (elimination.substitutes rules r).filter fun o => o.right ≠ [o.left]).erase r

/-- Any number of rounds, each for any unwanted rule there is. -/
inductive Run (elimination : Elimination) (rules : Finset Rule) : Finset Rule → Prop where
  | begin : Run elimination rules rules
  | round {rules' : Finset Rule} (before : Run elimination rules rules') (r : Rule) (mem : r ∈ rules')
      (unwanted : elimination.unwanted r) : Run elimination rules (elimination.round rules' r)

lemma Run.round_eq {elimination : Elimination} {rules rules' rules'' : Finset Rule}
    (before : Run elimination rules rules') (r : Rule) (mem : r ∈ rules') (unwanted : elimination.unwanted r)
    (heq : elimination.round rules' r = rules'') : Run elimination rules rules'' :=
  heq ▸ before.round r mem unwanted

/-- No rule is left that has to go. -/
def Finished (elimination : Elimination) (rules : Finset Rule) : Prop :=
  ∀ r ∈ rules, ¬elimination.unwanted r

lemma mem_round {elimination : Elimination} {rules : Finset Rule} {r o : Rule} :
    o ∈ elimination.round rules r ↔
      o ≠ r ∧ (o ∈ rules ∨ o ∈ elimination.substitutes rules r ∧ o.right ≠ [o.left]) := by
  rw [round, Finset.mem_erase, Finset.mem_union, Finset.mem_filter]

/-- A unit rule `A -> B` gives way to the rules of `B`, taken over by `A`. -/
def units (nonterminals : List Symbol) : Elimination where
  unwanted r := ∃ s ∈ nonterminals, r.right = [s]
  substitutes rules r := (rules.filter fun o => r.right = [o.left]).image fun o => ⟨r.left, o.right⟩

/-- What is left of a sequence when any of the occurrences of a symbol are dropped: the subsequences that keep all
other symbols. -/
def shortenings (a : Symbol) (u : List Symbol) : List (List Symbol) :=
  u.sublists.filter fun v => v.filter (· ≠ a) = u.filter (· ≠ a)

/-- An epsilon rule of a symbol other than the start symbol gives way to all rules without some of the occurrences
of the symbol. -/
def epsilons (start : Symbol) : Elimination where
  unwanted r := r.right = [] ∧ r.left ≠ start
  substitutes rules r := rules.biUnion fun o => (shortenings r.left o.right).toFinset.image (Rule.mk o.left)

variable {rules rules' : Finset Rule} {nonterminals : List Symbol} {start a b m n : Symbol} {r : Rule}
  {right u v : List Symbol}

/-! ### Unit rules -/

lemma mem_round_units : r ∈ (units nonterminals).round rules ⟨a, [b]⟩ ↔
    r ≠ ⟨a, [b]⟩ ∧ (r ∈ rules ∨ (r.left = a ∧ ⟨b, r.right⟩ ∈ rules) ∧ r.right ≠ [r.left]) := by
  have hsubstitutes : r ∈ (units nonterminals).substitutes rules ⟨a, [b]⟩ ↔
      r.left = a ∧ ⟨b, r.right⟩ ∈ rules := by
    simp only [units, Finset.mem_image, Finset.mem_filter, List.cons.injEq, and_true]
    constructor
    · rintro ⟨o, ⟨ho, rfl⟩, rfl⟩
      exact ⟨rfl, ho⟩
    · rintro ⟨rfl, ho⟩
      exact ⟨_, ⟨ho, rfl⟩, rfl⟩
  rw [mem_round, hsubstitutes]

/-- A unit rule leads from one symbol to the other. -/
def UnitStep (nonterminals : List Symbol) (rules : Finset Rule) (n m : Symbol) : Prop :=
  ⟨n, [m]⟩ ∈ rules ∧ m ∈ nonterminals

/-- A chain of unit rules leads from the symbol to a rule with that right side. -/
def Obtains (nonterminals : List Symbol) (rules : Finset Rule) (n : Symbol) (right : List Symbol) : Prop :=
  ∃ m, Relation.ReflTransGen (UnitStep nonterminals rules) n m ∧ ⟨m, right⟩ ∈ rules

namespace Obtains

lemma head (hstep : UnitStep nonterminals rules n m) (h : Obtains nonterminals rules m right) :
    Obtains nonterminals rules n right := by
  obtain ⟨k, hchain, hk⟩ := h
  exact ⟨k, hchain.head hstep, hk⟩

lemma before_round (h : Obtains nonterminals ((units nonterminals).round rules ⟨a, [b]⟩) n right)
    (hab : UnitStep nonterminals rules a b) : Obtains nonterminals rules n right := by
  obtain ⟨m, hchain, hm⟩ := h
  induction hchain using Relation.ReflTransGen.head_induction_on with
  | refl =>
    obtain ⟨-, hold | ⟨⟨rfl, hb⟩, -⟩⟩ := mem_round_units.mp hm
    · exact ⟨m, .refl, hold⟩
    · exact ⟨b, .single hab, hb⟩
  | @head x y hxy _ ih =>
    obtain ⟨-, hold | ⟨⟨rfl, hb⟩, -⟩⟩ := mem_round_units.mp hxy.1
    · exact .head ⟨hold, hxy.2⟩ ih
    · exact .head hab (.head ⟨hb, hxy.2⟩ ih)

/-- After the round for `a -> b`, `a` obtains all that `b` obtains. A chain from `b` stays at `b`, goes back to `a`,
or goes on to a nonterminal to which a unit rule of `a` leads now. -/
lemma of_target (h : Obtains nonterminals ((units nonterminals).round rules ⟨a, [b]⟩) b right)
    (ha : a ∈ nonterminals) (hb : b ∈ nonterminals) (hright : ∀ s ∈ nonterminals, right ≠ [s]) :
    Obtains nonterminals ((units nonterminals).round rules ⟨a, [b]⟩) a right := by
  have htaken : ∀ v, ⟨b, v⟩ ∈ (units nonterminals).round rules ⟨a, [b]⟩ → v ≠ [a] → v ≠ [b] →
      ⟨a, v⟩ ∈ (units nonterminals).round rules ⟨a, [b]⟩ := by
    intro v hv hva hvb
    have hold : ⟨b, v⟩ ∈ rules := by
      obtain ⟨-, hold | ⟨⟨-, hold⟩, -⟩⟩ := mem_round_units.mp hv <;> exact hold
    exact mem_round_units.mpr ⟨by simpa using hvb, .inr ⟨⟨rfl, hold⟩, hva⟩⟩
  obtain ⟨m, hchain, hm⟩ := h
  -- A chain that comes back to `b` is followed further; so the induction is over all chains, for those from `b`.
  have hfollow : ∀ x, Relation.ReflTransGen (UnitStep nonterminals ((units nonterminals).round rules ⟨a, [b]⟩)) x m →
      x = b → Obtains nonterminals ((units nonterminals).round rules ⟨a, [b]⟩) a right := by
    intro x hchain
    induction hchain using Relation.ReflTransGen.head_induction_on with
    | refl =>
      rintro rfl
      exact ⟨a, .refl, htaken right hm (hright a ha) (hright m hb)⟩
    | @head x y hxy hrest ih =>
      rintro rfl
      by_cases hyx : y = x
      · exact ih hyx
      by_cases hya : y = a
      · exact ⟨m, hya ▸ hrest, hm⟩
      have hay : ⟨a, [y]⟩ ∈ (units nonterminals).round rules ⟨a, [x]⟩ :=
        htaken [y] hxy.1 (by simpa using hya) (by simpa using hyx)
      exact ⟨m, hrest.head ⟨hay, hxy.2⟩, hm⟩
  exact hfollow b hchain rfl

lemma round_iff (hab : UnitStep nonterminals rules a b) (ha : a ∈ nonterminals)
    (hright : ∀ s ∈ nonterminals, right ≠ [s]) :
    Obtains nonterminals ((units nonterminals).round rules ⟨a, [b]⟩) n right ↔
      Obtains nonterminals rules n right := by
  constructor
  · exact fun h => h.before_round hab
  · rintro ⟨m, hchain, hm⟩
    induction hchain using Relation.ReflTransGen.head_induction_on with
    | refl =>
      refine ⟨m, .refl, mem_round_units.mpr ⟨fun he => ?_, .inl hm⟩⟩
      exact hright b hab.2 (Rule.mk.inj he).2
    | @head x y hxy _ ih =>
      by_cases he : (⟨x, [y]⟩ : Rule) = ⟨a, [b]⟩
      · obtain ⟨rfl, hy⟩ := Rule.mk.inj he
        obtain rfl : y = b := by simpa using hy
        exact ih.of_target ha hab.2 hright
      · exact .head ⟨mem_round_units.mpr ⟨he, .inl hxy.1⟩, hxy.2⟩ ih

lemma iff_mem (hdone : (units nonterminals).Finished rules) :
    Obtains nonterminals rules n right ↔ ⟨n, right⟩ ∈ rules := by
  constructor
  · rintro ⟨m, hchain, hm⟩
    rcases hchain.cases_head with rfl | ⟨k, hk, -⟩
    · exact hm
    · exact absurd ⟨k, hk.2, rfl⟩ (hdone _ hk.1)
  · exact fun h => ⟨n, .refl, h⟩

end Obtains

/-- What the rules of a run have in common with those at its beginning. -/
structure SameChains (nonterminals : List Symbol) (rules rules' : Finset Rule) : Prop where
  left_mem : ∀ r ∈ rules', r.left ∈ nonterminals
  obtains_iff : ∀ n right, (∀ s ∈ nonterminals, right ≠ [s]) →
    (Obtains nonterminals rules' n right ↔ Obtains nonterminals rules n right)

lemma Run.sameChains (hrun : (units nonterminals).Run rules rules') (hleft : ∀ r ∈ rules, r.left ∈ nonterminals) :
    SameChains nonterminals rules rules' := by
  induction hrun with
  | begin => exact ⟨hleft, fun _ _ _ => Iff.rfl⟩
  | round _ r hmem hunwanted ih =>
    obtain ⟨a, right⟩ := r
    obtain ⟨b, hb, rfl⟩ : ∃ b ∈ nonterminals, right = [b] := hunwanted
    have ha := ih.left_mem _ hmem
    refine ⟨fun o ho => ?_, fun n right hright => ?_⟩
    · obtain ⟨-, hold | ⟨⟨rfl, -⟩, -⟩⟩ := mem_round_units.mp ho
      · exact ih.left_mem o hold
      · exact ha
    · rw [Obtains.round_iff ⟨hmem, hb⟩ ha hright]
      exact ih.obtains_iff n right hright

/-! ### Epsilon rules -/

lemma drops_iff : Drops (· = a) u v ↔ v.Sublist u ∧ v.filter (· ≠ a) = u.filter (· ≠ a) := by
  constructor
  · intro h
    refine ⟨h.sublist, ?_⟩
    induction h with
    | nil => rfl
    | keep s _ ih => simp only [List.filter_cons, ih]
    | drop prop _ ih => simpa [List.filter_cons, prop] using ih
  · rintro ⟨hsub, hsame⟩
    induction hsub with
    | slnil => exact .nil
    | @cons v u s hsub ih =>
      by_cases hs : s = a
      · exact .drop hs (ih (by simpa [List.filter_cons, hs] using hsame))
      · have hle := (hsub.filter fun x => decide (x ≠ a)).length_le
        rw [hsame, List.filter_cons, if_pos (by simpa using hs), List.length_cons] at hle
        omega
    | @cons_cons v u s _ ih =>
      refine .keep s (ih ?_)
      simp only [List.filter_cons] at hsame
      split_ifs at hsame with hs
      · exact (List.cons.inj hsame).2
      · exact hsame

lemma mem_round_epsilons : r ∈ (epsilons start).round rules ⟨a, []⟩ ↔
    r ≠ ⟨a, []⟩ ∧ (r ∈ rules ∨
      (∃ o ∈ rules, o.left = r.left ∧ Drops (· = a) o.right r.right) ∧ r.right ≠ [r.left]) := by
  have hsubstitutes : r ∈ (epsilons start).substitutes rules ⟨a, []⟩ ↔
      ∃ o ∈ rules, o.left = r.left ∧ Drops (· = a) o.right r.right := by
    simp only [epsilons, shortenings, Finset.mem_biUnion, Finset.mem_image, List.mem_toFinset,
      List.mem_filter, List.mem_sublists, decide_eq_true_eq, drops_iff]
    apply exists_congr
    intro o
    apply and_congr_right
    intro _
    constructor
    · rintro ⟨v, hv, rfl⟩
      exact ⟨rfl, hv⟩
    · rintro ⟨hleft, hdrops⟩
      exact ⟨r.right, hdrops, by rw [hleft]⟩
  rw [mem_round, hsubstitutes]

lemma Run.exists_covers {g : Grammar} (hrun : (epsilons g.start).Run g.rules.toFinset rules) :
    ∃ past, g.Covers past {r | r ∈ rules} := by
  induction hrun with
  | begin =>
    refine ⟨[], ?_⟩
    simp only [List.mem_toFinset]
    exact .begin g
  | round _ r hmem hunwanted ih =>
    obtain ⟨past, hcovers⟩ := ih
    obtain ⟨a, right⟩ := r
    obtain ⟨rfl, hne⟩ : right = [] ∧ a ≠ g.start := hunwanted
    refine ⟨past ++ [a], hcovers.step hmem hne ?_ ?_ ?_⟩
    · exact fun o ho => (mem_round_epsilons.mp ho).2
    · exact fun o ho hoa => mem_round_epsilons.mpr ⟨hoa, .inl ho⟩
    · intro o ho v hv hloop hepsilon
      refine mem_round_epsilons.mpr ⟨fun he => hepsilon ?_, .inr ⟨⟨o, ho, rfl, hv⟩, hloop⟩⟩
      obtain ⟨hleft, hnil⟩ := Rule.mk.inj he
      exact ⟨hnil, by simp [hleft]⟩

end Elimination

open Elimination (units epsilons)

namespace Grammar

variable {g : Grammar} {rules : Finset Rule} {n : Symbol} {right : List Symbol}

lemma Consistent.obtains_iff (hg : g.Consistent) :
    Elimination.Obtains g.nonterminals g.rules.toFinset n right ↔
      ∃ m, BreadthFirst.LeadsTo g.unitSuccessors n m ∧ ⟨m, right⟩ ∈ g.rules := by
  have hsteps : Elimination.UnitStep g.nonterminals g.rules.toFinset =
      fun a b => ⟨a, [b]⟩ ∈ g.rules ∧ b ∈ g.nonterminals := by
    funext a b
    rw [Elimination.UnitStep, List.mem_toFinset]
  rw [Elimination.Obtains, hsteps]
  simp only [List.mem_toFinset, hg.leadsTo_unitSuccessors]

/-- Whichever unit rules are picked, an elimination of unit rules that ends leaves the rules that the collapse
leaves. -/
theorem unit_rules_picked_in_any_order (hg : g.Consistent)
    (hrun : (units g.nonterminals).Run g.rules.toFinset rules) (hdone : (units g.nonterminals).Finished rules) :
    ∃ g', collapseUnits g = .ok () g' ∧ rules = g'.rules.toFinset := by
  obtain ⟨_, g', hcollapse, -, hcollapsed⟩ := hg.succeeds_collapseUnits
  have hsame := hrun.sameChains fun r hr => hg.left_mem r (List.mem_toFinset.mp hr)
  refine ⟨g', hcollapse, ?_⟩
  ext r
  have hunit : g.isUnit r = false ↔ ∀ s ∈ g.nonterminals, r.right ≠ [s] := by
    rw [← Bool.not_eq_true, hg.isUnit_iff]
    simp
  rw [List.mem_toFinset, hcollapsed.mem_rules, ← hg.obtains_iff, hunit]
  constructor
  · intro hr
    have hright : ∀ s ∈ g.nonterminals, r.right ≠ [s] := fun s hs he => hdone r hr ⟨s, hs, he⟩
    exact ⟨hright, (hsame.obtains_iff _ _ hright).mp ((Elimination.Obtains.iff_mem hdone).mpr hr)⟩
  · rintro ⟨hright, hobtains⟩
    exact (Elimination.Obtains.iff_mem hdone).mp ((hsame.obtains_iff _ _ hright).mpr hobtains)

/-- From `S` unit rules lead to a cycle, with a rule of another kind on it. -/
def unitCycle : List Rule :=
  [⟨"S", ["A"]⟩, ⟨"A", ["B"]⟩, ⟨"B", ["A"]⟩, ⟨"B", ["b"]⟩]

lemma run_unitCycle : (units ["S", "A", "B"]).Run unitCycle.toFinset
    {⟨"S", ["b"]⟩, ⟨"A", ["b"]⟩, ⟨"B", ["b"]⟩} := by
  have h₁ : (units ["S", "A", "B"]).Run unitCycle.toFinset
      {⟨"S", ["B"]⟩, ⟨"A", ["B"]⟩, ⟨"B", ["A"]⟩, ⟨"B", ["b"]⟩} :=
    Elimination.Run.begin.round_eq ⟨"S", ["A"]⟩ (by decide) ⟨"A", by decide, rfl⟩ (by decide)
  have h₂ : (units ["S", "A", "B"]).Run unitCycle.toFinset
      {⟨"S", ["A"]⟩, ⟨"S", ["b"]⟩, ⟨"A", ["B"]⟩, ⟨"B", ["A"]⟩, ⟨"B", ["b"]⟩} :=
    h₁.round_eq ⟨"S", ["B"]⟩ (by decide) ⟨"B", by decide, rfl⟩ (by decide)
  have h₃ : (units ["S", "A", "B"]).Run unitCycle.toFinset
      {⟨"S", ["A"]⟩, ⟨"S", ["b"]⟩, ⟨"A", ["b"]⟩, ⟨"B", ["A"]⟩, ⟨"B", ["b"]⟩} :=
    h₂.round_eq ⟨"A", ["B"]⟩ (by decide) ⟨"B", by decide, rfl⟩ (by decide)
  have h₄ : (units ["S", "A", "B"]).Run unitCycle.toFinset
      {⟨"S", ["A"]⟩, ⟨"S", ["b"]⟩, ⟨"A", ["b"]⟩, ⟨"B", ["b"]⟩} :=
    h₃.round_eq ⟨"B", ["A"]⟩ (by decide) ⟨"A", by decide, rfl⟩ (by decide)
  exact h₄.round_eq ⟨"S", ["A"]⟩ (by decide) ⟨"A", by decide, rfl⟩ (by decide)

theorem collapse_of_unitCycle :
    ∃ g g', ofParts "S" ["b"] ["A", "B"] unitCycle .standard = .ok g ∧ collapseUnits g = .ok () g' ∧
      {⟨"S", ["b"]⟩, ⟨"A", ["b"]⟩, ⟨"B", ["b"]⟩} = g'.rules.toFinset := by
  obtain ⟨g, hg, hcontents⟩ := ofParts_eq_ok "S" ["b"] ["A", "B"] unitCycle .standard (by decide) (by decide)
    (by decide) (by decide) (by decide)
  have hnonterminals : g.nonterminals = ["S", "A", "B"] := congrArg Contents.nonterminals hcontents
  have hrules : g.rules = unitCycle := congrArg Contents.rules hcontents
  have hdone : (units g.nonterminals).Finished {⟨"S", ["b"]⟩, ⟨"A", ["b"]⟩, ⟨"B", ["b"]⟩} := by
    rw [hnonterminals]
    unfold Elimination.Finished units
    decide
  obtain ⟨g', hcollapse, heq⟩ := unit_rules_picked_in_any_order (.ofParts hg)
    (by rw [hnonterminals, hrules]; exact run_unitCycle) hdone
  exact ⟨g, g', hg, hcollapse, heq⟩

/-- Whichever epsilon rules are picked, and however often for one symbol, an elimination of epsilon rules that
ends leaves the rules that erasure leaves. -/
theorem epsilon_rules_picked_in_any_order (hg : g.Consistent)
    (hrun : (epsilons g.start).Run g.rules.toFinset rules) (hdone : (epsilons g.start).Finished rules) :
    ∃ g', eraseEpsilons g = .ok () g' ∧ rules = g'.rules.toFinset := by
  obtain ⟨_, g', herasure, -, herased, -⟩ := hg.succeeds_eraseEpsilons
  obtain ⟨past, hcovers⟩ := hrun.exists_covers
  refine ⟨g', herasure, ?_⟩
  ext r
  rw [List.mem_toFinset, herased.mem_rules]
  refine hcovers.mem_iff (fun o ho hright => ?_) r
  by_contra hne
  exact hdone o ho ⟨hright, hne⟩

/-- Symbols that vanish, one of them in two ways. -/
def vanishingChain : List Rule :=
  [⟨"S", ["A", "A"]⟩, ⟨"A", []⟩, ⟨"A", ["B"]⟩, ⟨"B", []⟩]

lemma run_vanishingChain : (epsilons "S").Run vanishingChain.toFinset
    {⟨"S", ["A", "A"]⟩, ⟨"S", ["A"]⟩, ⟨"S", []⟩, ⟨"A", ["B"]⟩} := by
  have h₁ : (epsilons "S").Run vanishingChain.toFinset
      {⟨"S", ["A", "A"]⟩, ⟨"S", ["A"]⟩, ⟨"S", []⟩, ⟨"A", ["B"]⟩, ⟨"B", []⟩} :=
    Elimination.Run.begin.round_eq ⟨"A", []⟩ (by decide) ⟨rfl, by decide⟩ (by decide)
  have h₂ : (epsilons "S").Run vanishingChain.toFinset
      {⟨"S", ["A", "A"]⟩, ⟨"S", ["A"]⟩, ⟨"S", []⟩, ⟨"A", ["B"]⟩, ⟨"A", []⟩} :=
    h₁.round_eq ⟨"B", []⟩ (by decide) ⟨rfl, by decide⟩ (by decide)
  exact h₂.round_eq ⟨"A", []⟩ (by decide) ⟨rfl, by decide⟩ (by decide)

theorem erasure_of_vanishingChain :
    ∃ g g', ofParts "S" [] ["A", "B"] vanishingChain .standard = .ok g ∧ eraseEpsilons g = .ok () g' ∧
      {⟨"S", ["A", "A"]⟩, ⟨"S", ["A"]⟩, ⟨"S", []⟩, ⟨"A", ["B"]⟩} = g'.rules.toFinset := by
  obtain ⟨g, hg, hcontents⟩ := ofParts_eq_ok "S" [] ["A", "B"] vanishingChain .standard (by decide) (by decide)
    (by decide) (by decide) (by decide)
  have hstart : g.start = "S" := congrArg Contents.start hcontents
  have hrules : g.rules = vanishingChain := congrArg Contents.rules hcontents
  have hdone : (epsilons g.start).Finished {⟨"S", ["A", "A"]⟩, ⟨"S", ["A"]⟩, ⟨"S", []⟩, ⟨"A", ["B"]⟩} := by
    rw [hstart]
    unfold Elimination.Finished epsilons
    decide
  obtain ⟨g', herasure, heq⟩ := epsilon_rules_picked_in_any_order (.ofParts hg)
    (by rw [hstart, hrules]; exact run_vanishingChain) hdone
  exact ⟨g, g', hg, herasure, heq⟩

end Grammar

end ContextFree

import ContextFree.Proofs.Attainability
import ContextFree.Proofs.EpsilonErasure
import ContextFree.Proofs.UnitChains

/-!
# What eliminations leave

Erasure and the collapse of unit rules come across the rules in some order and add to them on the way. What they
leave depends on the rules before them alone, and so does what every symbol generates afterwards: erasure takes the
empty sequence away from the symbols that vanish, and the collapse takes nothing away.
-/

namespace ContextFree.Grammar

variable {g g' h h' : Grammar} {s : Symbol} {u w : List Symbol}

/-! ### Erasure -/

/-- Nonterminals other than the start symbol, among them the left symbol of every rule that has only such symbols
on its right side. -/
structure ClosedUnderErasure (g : Grammar) (symbols : Set Symbol) : Prop where
  mem_nonterminals : ∀ s ∈ symbols, s ∈ g.nonterminals
  ne_start : ∀ s ∈ symbols, s ≠ g.start
  left_mem : ∀ r ∈ g.rules, r.left ≠ g.start → (∀ s ∈ r.right, s ∈ symbols) → r.left ∈ symbols

lemma Consistent.isLeast_vanishing (hg : g.Consistent) :
    IsLeast {symbols | g.ClosedUnderErasure symbols} {s | g.Vanishing s} := by
  constructor
  · exact ⟨fun s hs => hs.mem_nonterminals hg, fun s hs => hs.ne_start,
      fun r hr hne hright => .intro hr hne hright⟩
  · intro symbols hclosed s hs
    induction hs with
    | intro mem ne_start _ ih => exact hclosed.left_mem _ mem ne_start ih

lemma Vanishing.of_more_rules (hs : g.Vanishing s) (hstart : h.start = g.start)
    (hrules : ∀ r ∈ g.rules, r ∈ h.rules) : h.Vanishing s := by
  induction hs with
  | intro mem ne_start _ ih => exact .intro (hrules _ mem) (hstart ▸ ne_start) ih

lemma length_le_of_yields (hstart : g.StartUnused) (hepsilon : g.EpsilonAtStart) (hy : Yields g.rules u w)
    (hu : g.start ∉ u) : u.length ≤ w.length := by
  induction hy with
  | nil => exact le_rfl
  | keep s _ ih =>
    have hrest := ih (List.not_mem_of_not_mem_cons hu)
    simp only [List.length_cons]
    omega
  | @expand r u v w mem _ _ ih₁ ih₂ =>
    obtain ⟨hleft, hu⟩ := List.ne_and_not_mem_of_not_mem_cons hu
    have hright : 0 < r.right.length := by
      rw [List.length_pos_iff]
      intro hnil
      exact hleft (hepsilon r mem hnil).symm
    have hinner := ih₁ (hstart r mem)
    have hrest := ih₂ hu
    simp only [List.length_cons, List.length_append]
    omega

namespace Erased

lemma epsilonAtStart (hg : Erased g g') : g'.EpsilonAtStart := by
  intro r hr hright
  rw [hg.rulesOnly.start_eq]
  exact ((hg.mem_rules r).mp hr).2.2 hright

lemma generatesFrom_iff (hg : Erased g g') (hs : ¬g.Vanishing s ∨ w ≠ []) :
    g'.GeneratesFrom s w ↔ g.GeneratesFrom s w := by
  unfold GeneratesFrom
  rw [hg.rulesOnly.terminals_eq, hg.derives_iff hs]

lemma not_generatesFrom_nil (hg : Erased g g') (hstart : g.StartUnused) (hs : s ≠ g'.start) :
    ¬g'.GeneratesFrom s [] := by
  rintro ⟨-, hd⟩
  have hle := length_le_of_yields (hg.startUnused hstart) hg.epsilonAtStart (derives_iff_yields.mp hd)
    (by simpa using hs.symm)
  simp at hle

lemma mem_of_more_rules (hg : Erased g g') (hh : Erased h h') (hstart : h.start = g.start)
    (hrules : ∀ r ∈ g.rules, r ∈ h.rules) {r : Rule} (hr : r ∈ g'.rules) : r ∈ h'.rules := by
  obtain ⟨⟨o, ho, hleft, hdrops⟩, hloop, hepsilon⟩ := (hg.mem_rules r).mp hr
  have hdrops' : Drops h.Vanishing o.right r.right := hdrops.mono fun s hs => hs.of_more_rules hstart hrules
  rw [hh.mem_rules, hstart]
  exact ⟨⟨o, hrules o ho, hleft, hdrops'⟩, fun he => hrules r (hloop he), hepsilon⟩

lemma rules_perm (hg : Erased g g') (hh : Erased h h') (hg' : g'.Consistent) (hh' : h'.Consistent)
    (hstart : h.start = g.start) (hrules : h.rules.Perm g.rules) : h'.rules.Perm g'.rules := by
  rw [List.perm_ext_iff_of_nodup hh'.rules_nodup hg'.rules_nodup]
  intro r
  constructor
  · exact hh.mem_of_more_rules hg hstart.symm fun o ho => hrules.subset ho
  · exact hg.mem_of_more_rules hh hstart fun o ho => hrules.symm.subset ho

end Erased

/-- Erasure keeps the language and all that a symbol generates, except that a symbol that vanishes need not generate
the empty sequence any more. Only the start symbol keeps an epsilon rule; if no rule uses it, then no other symbol
generates the empty sequence. -/
theorem erasure_takes_only_empty_sequences (hg : g.Consistent) :
    ∃ g', eraseEpsilons g = .ok () g' ∧ RulesOnly g g' ∧
      (∀ w, g'.Generates w ↔ g.Generates w) ∧
      (∀ s w, ¬g.Vanishing s ∨ w ≠ [] → (g'.GeneratesFrom s w ↔ g.GeneratesFrom s w)) ∧
      (∀ r ∈ g'.rules, r.right = [] → r.left = g'.start) ∧
      ((∀ r ∈ g.rules, g.start ∉ r.right) → ∀ s, s ≠ g'.start → ¬g'.GeneratesFrom s []) := by
  obtain ⟨_, g', hrun, -, herased, -⟩ := hg.succeeds_eraseEpsilons
  refine ⟨g', hrun, herased.rulesOnly, herased.generates_iff, ?_, herased.epsilonAtStart, ?_⟩
  · intro s w hs
    exact herased.generatesFrom_iff hs
  · intro hstart s hs
    exact herased.not_generatesFrom_nil hstart hs

/-- The rules `S -> A B A`, `A -> a`, `A -> epsilon` and `B -> A`. -/
def optionalTriple : List Rule :=
  [⟨"S", ["A", "B", "A"]⟩, ⟨"A", ["a"]⟩, ⟨"A", []⟩, ⟨"B", ["A"]⟩]

lemma exists_optionalTriple : ∃ g, ofParts "S" ["a"] ["A", "B"] optionalTriple .standard = .ok g ∧
    g.contents = ⟨"S", ["a"], ["S", "A", "B"], optionalTriple, .standard⟩ :=
  ofParts_eq_ok _ _ _ _ _ (by decide) (by decide) (by decide) (by decide) (by decide)

/-- Both `S` and `B` generate the empty sequence before erasure, and only `S` does so after it. -/
theorem erasure_of_optionalTriple :
    ∃ g g', ofParts "S" ["a"] ["A", "B"] optionalTriple .standard = .ok g ∧ eraseEpsilons g = .ok () g' ∧
      g.GeneratesFrom "B" [] ∧ g'.Generates [] ∧ g'.GeneratesFrom "B" ["a"] ∧ ¬g'.GeneratesFrom "B" [] := by
  obtain ⟨g, hg, hcontents⟩ := exists_optionalTriple
  obtain ⟨hstart, hterminals, -, hrules, -⟩ := Contents.mk.inj hcontents
  have hrule : ∀ r ∈ optionalTriple, Derives optionalTriple [r.left] r.right := fun r hr => .of_mem hr
  have ha := hrule ⟨"A", ["a"]⟩ (by decide)
  have hnil := hrule ⟨"A", []⟩ (by decide)
  have hb := hrule ⟨"B", ["A"]⟩ (by decide)
  have hs := hrule ⟨"S", ["A", "B", "A"]⟩ (by decide)
  have hempty : Derives optionalTriple ["S"] [] := hs.trans ((hnil.append (hb.trans hnil)).append hnil)
  obtain ⟨g', hrun, hframe, hlanguage, hsymbols, -, hunused⟩ := erasure_takes_only_empty_sequences (.ofParts hg)
  refine ⟨g, g', hg, hrun, ?_, (hlanguage []).mpr ?_, (hsymbols "B" ["a"] (.inr (by simp))).mpr ?_,
    hunused ?_ "B" ?_⟩
  · exact ⟨by simp, hrules ▸ hb.trans hnil⟩
  · exact ⟨by simp, by rwa [hstart, hrules]⟩
  · exact ⟨by simp [hterminals], hrules ▸ hb.trans ha⟩
  · rw [hstart, hrules]
    decide
  · rw [hframe.start_eq, hstart]
    decide

/-- The rules that erasure leaves are the old rules without some occurrences of symbols that vanish, these being the
least set of symbols that has every symbol with a rule of such symbols. Loops are left if they are old, and epsilon
rules if they are the start symbol's. The order of the rules does not matter. -/
theorem erasure_leaves_shortened_rules (hg : g.Consistent) :
    ∃ (vanishing : Set Symbol) (g' : Grammar), IsLeast {symbols | g.ClosedUnderErasure symbols} vanishing ∧
      eraseEpsilons g = .ok () g' ∧
      (∀ r, r ∈ g'.rules ↔ (∃ o ∈ g.rules, o.left = r.left ∧ Drops (· ∈ vanishing) o.right r.right) ∧
        (r.right = [r.left] → r ∈ g.rules) ∧ (r.right = [] → r.left = g.start)) ∧
      ∀ h : Grammar, h.Consistent → h.start = g.start → h.rules.Perm g.rules →
        ∃ h', eraseEpsilons h = .ok () h' ∧ h'.rules.Perm g'.rules := by
  obtain ⟨_, g', hrun, hg', herased, -⟩ := hg.succeeds_eraseEpsilons
  refine ⟨{s | g.Vanishing s}, g', hg.isLeast_vanishing, hrun, herased.mem_rules, ?_⟩
  intro h hh hstart hrules
  obtain ⟨_, h', hrun', hh', herased', -⟩ := hh.succeeds_eraseEpsilons
  exact ⟨h', hrun', herased.rules_perm herased' hg' hh' hstart hrules⟩

/-- The symbol `B` vanishes only because `A` does. It is dropped from the rule for `S` and has no epsilon rule, and so
it is if the rules come in the opposite order. -/
theorem erased_rules_of_optionalTriple :
    ∃ g h g' h', ofParts "S" ["a"] ["A", "B"] optionalTriple .standard = .ok g ∧
      ofParts "S" ["a"] ["A", "B"] optionalTriple.reverse .standard = .ok h ∧
      eraseEpsilons g = .ok () g' ∧ eraseEpsilons h = .ok () h' ∧ ⟨"S", ["A", "A"]⟩ ∈ g'.rules ∧
      ⟨"B", []⟩ ∉ g'.rules ∧ h'.rules.Perm g'.rules := by
  obtain ⟨g, hg, hcontents⟩ := exists_optionalTriple
  obtain ⟨h, hh, hcontents'⟩ := ofParts_eq_ok "S" ["a"] ["A", "B"] optionalTriple.reverse .standard
    (by decide) (by decide) (by decide) (by decide) (by decide)
  obtain ⟨hstart, -, -, hrules, -⟩ := Contents.mk.inj hcontents
  obtain ⟨hstart', -, -, hrules', -⟩ := Contents.mk.inj hcontents'
  obtain ⟨vanishing, g', hleast, hrun, hmem, horder⟩ := erasure_leaves_shortened_rules (.ofParts hg)
  obtain ⟨h', hrun', hperm⟩ := horder h (.ofParts hh) (hstart'.trans hstart.symm)
    (by rw [hrules, hrules']; exact List.reverse_perm _)
  have hleft := hleast.1.left_mem
  rw [hstart, hrules] at hleft
  have ha : "A" ∈ vanishing := hleft ⟨"A", []⟩ (by decide) (by decide) (by simp)
  have hb : "B" ∈ vanishing := hleft ⟨"B", ["A"]⟩ (by decide) (by decide) (by simpa using ha)
  have hdrops : Drops (· ∈ vanishing) ["A", "B", "A"] ["A", "A"] := .keep _ (.drop hb (.refl _))
  refine ⟨g, h, g', h', hg, hh, hrun, hrun',
    (hmem _).mpr ⟨⟨⟨"S", ["A", "B", "A"]⟩, ?_, rfl, hdrops⟩, ?_⟩, ?_, hperm⟩
  · rw [hrules]
    decide
  · simp
  · intro he
    have hepsilon := ((hmem _).mp he).2.2 rfl
    rw [hstart] at hepsilon
    exact absurd hepsilon (by decide)

/-! ### The collapse of unit rules -/

/-- The collapse leaves a symbol the rules other than unit rules of every nonterminal that a chain of unit rules leads
to from it, and no rules beside these. Every symbol generates what it generated before. -/
theorem collapse_leaves_rules_at_chain_ends (hg : g.Consistent) :
    ∃ g', collapseUnits g = .ok () g' ∧ RulesOnly g g' ∧
      (∀ r, r ∈ g'.rules ↔ (∀ s ∈ g.nonterminals, r.right ≠ [s]) ∧ ∃ m ∈ g.nonterminals,
        Relation.ReflTransGen (fun a b => ⟨a, [b]⟩ ∈ g.rules ∧ b ∈ g.nonterminals) r.left m ∧
          ⟨m, r.right⟩ ∈ g.rules) ∧
      (∀ r ∈ g'.rules, ∀ s ∈ g'.nonterminals, r.right ≠ [s]) ∧
      ∀ s w, g'.GeneratesFrom s w ↔ g.GeneratesFrom s w := by
  obtain ⟨_, g', hrun, -, hcollapsed⟩ := hg.succeeds_collapseUnits
  refine ⟨g', hrun, hcollapsed.rulesOnly, ?_, ?_, hcollapsed.generatesFrom_iff hg⟩
  · intro r
    have hunit : g.isUnit r = false ↔ ∀ s ∈ g.nonterminals, r.right ≠ [s] := by
      rw [← Bool.not_eq_true, hg.isUnit_iff]
      simp
    rw [hcollapsed.mem_rules, hunit]
    apply and_congr_right
    intro _
    constructor
    · rintro ⟨m, hlead, hm⟩
      exact ⟨m, hg.left_mem _ hm, hg.leadsTo_unitSuccessors.mp hlead, hm⟩
    · rintro ⟨m, -, hchain, hm⟩
      exact ⟨m, hg.leadsTo_unitSuccessors.mpr hchain, hm⟩
  · intro r hr s hs he
    exact hcollapsed.unitFree hg r hr s he hs

/-- The unit rules of `S` lead to `S` itself and to a cycle of `A` and `B`. -/
def unitLoops : List Rule :=
  [⟨"S", ["S"]⟩, ⟨"S", ["A"]⟩, ⟨"A", ["B"]⟩, ⟨"B", ["A"]⟩, ⟨"B", ["b", "S"]⟩, ⟨"B", []⟩]

theorem collapse_of_unitLoops :
    ∃ g g', ofParts "S" ["b"] ["A", "B"] unitLoops .standard = .ok g ∧ collapseUnits g = .ok () g' ∧
      ⟨"S", ["b", "S"]⟩ ∈ g'.rules ∧ ⟨"S", ["S"]⟩ ∉ g'.rules ∧ g'.GeneratesFrom "A" ["b"] := by
  obtain ⟨g, hg, hcontents⟩ := ofParts_eq_ok "S" ["b"] ["A", "B"] unitLoops .standard
    (by decide) (by decide) (by decide) (by decide) (by decide)
  obtain ⟨-, hterminals, hnonterminals, hrules, -⟩ := Contents.mk.inj hcontents
  obtain ⟨g', hrun, hframe, hmem, hunits, hsame⟩ := collapse_leaves_rules_at_chain_ends (.ofParts hg)
  rw [hnonterminals, hrules] at hmem
  have hstep : ∀ a b, (⟨a, [b]⟩ ∈ unitLoops ∧ b ∈ ["S", "A", "B"]) → Relation.ReflTransGen
      (fun a b => ⟨a, [b]⟩ ∈ unitLoops ∧ b ∈ ["S", "A", "B"]) a b := fun a b h => .single h
  have hchain := (hstep "S" "A" (by decide)).trans (hstep "A" "B" (by decide))
  have hrule : ∀ r ∈ unitLoops, Derives unitLoops [r.left] r.right := fun r hr => .of_mem hr
  have hsa := hrule ⟨"S", ["A"]⟩ (by decide)
  have hab := hrule ⟨"A", ["B"]⟩ (by decide)
  have hbs := hrule ⟨"B", ["b", "S"]⟩ (by decide)
  have hnil := hrule ⟨"B", []⟩ (by decide)
  have hb : Derives unitLoops ["A"] ["b"] :=
    (hab.trans hbs).trans ((Derives.refl _ ["b"]).append ((hsa.trans hab).trans hnil))
  refine ⟨g, g', hg, hrun, (hmem _).mpr ⟨by decide, "B", by decide, hchain, by decide⟩, ?_, (hsame _ _).mpr ?_⟩
  · intro hloop
    refine hunits _ hloop "S" ?_ rfl
    rw [hframe.nonterminals_eq, hnonterminals]
    decide
  · exact ⟨by simp [hterminals], hrules ▸ hb⟩

end ContextFree.Grammar

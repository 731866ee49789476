import ContextFree.Proofs.ConsistentEdits
import ContextFree.Proofs.LeavingOut
import ContextFree.Proofs.StageConditions
import ContextFree.Proofs.Yields

/-!
# Erased epsilon rules

The symbols that come to lose an epsilon rule are the vanishing ones: those other than the start symbol that have
a rule of vanishing symbols only. Erasure leaves the rules that drop occurrences of vanishing symbols from the
old ones, without loops that are not old and without epsilon rules of symbols other than the start symbol.
-/

namespace ContextFree.Grammar

/-- The symbols other than the start symbol that rules can erase without its help. -/
inductive Vanishing (g : Grammar) : Symbol → Prop where
  | intro {r : Rule} (mem : r ∈ g.rules) (ne_start : r.left ≠ g.start)
      (right : ∀ s ∈ r.right, Vanishing g s) : Vanishing g r.left

variable {g g' : Grammar} {past : List Symbol} {a s : Symbol} {r : Rule}

lemma Vanishing.ne_start (h : g.Vanishing s) : s ≠ g.start := by
  cases h
  assumption

lemma Vanishing.mem_nonterminals (h : g.Vanishing s) (hg : g.Consistent) : s ∈ g.nonterminals := by
  cases h with
  | intro mem _ _ => exact hg.left_mem _ mem

lemma Vanishing.derives_nil (h : g.Vanishing s) : Derives g.rules [s] [] := by
  induction h with
  | @intro r mem _ _ ih =>
    have hright : ∀ u : List Symbol, (∀ x ∈ u, Derives g.rules [x] []) → Derives g.rules u [] := by
      intro u
      induction u with
      | nil => exact fun _ => .refl _ _
      | cons x u hu =>
        intro h
        obtain ⟨hx, h⟩ := List.forall_mem_cons.mp h
        exact hx.append (hu h)
    exact (Derives.of_mem mem).trans (hright r.right ih)

lemma derives_of_drops {u v : List Symbol} (h : Drops g.Vanishing u v) : Derives g.rules u v := by
  induction h with
  | nil => exact .refl _ _
  | keep s _ ih => exact (Derives.refl _ [s]).append ih
  | drop prop _ ih => exact prop.derives_nil.append ih

/-! ### Rules that cover those before -/

/-- How rules compare with those of a grammar when symbols have lost epsilon rules. They come from the old rules
by dropping vanishing symbols; and to drop symbols that lost an epsilon rule gives no new rules, loops and epsilon
rules of such symbols apart. -/
structure Covers (g₀ : Grammar) (past : List Symbol) (rules : Set Rule) : Prop where
  sound : ∀ r ∈ rules, ∃ o ∈ g₀.rules, o.left = r.left ∧ Drops g₀.Vanishing o.right r.right
  loop_mem : ∀ r ∈ rules, r.right = [r.left] → r ∈ g₀.rules
  kept : ∀ r ∈ g₀.rules, r ∈ rules ∨ r.right = [] ∧ r.left ∈ past
  closed : ∀ r ∈ rules, ∀ v, Drops (· ∈ past) r.right v →
    ⟨r.left, v⟩ ∈ rules ∨ v = [r.left] ∨ v = [] ∧ r.left ∈ past
  past_vanishing : ∀ a ∈ past, g₀.Vanishing a

namespace Covers

variable {g₀ : Grammar} {rules rules' : Set Rule}

lemma begin (g₀ : Grammar) : Covers g₀ [] {r | r ∈ g₀.rules} where
  sound r hr := ⟨r, hr, rfl, .refl _⟩
  loop_mem _ hr _ := hr
  kept _ hr := .inl hr
  closed r hr v hv := by
    rw [hv.eq_of_none (by simp)]
    exact .inl hr
  past_vanishing := by simp

lemma vanishing (h : Covers g₀ past rules) (ha : ⟨a, []⟩ ∈ rules) (hne : a ≠ g₀.start) : g₀.Vanishing a := by
  obtain ⟨o, ho, rfl, hdrops⟩ := h.sound _ ha
  exact .intro ho hne (Drops.nil_iff.mp hdrops)

/-- A round removes an epsilon rule and drops its symbol from the rules. It need not bring back epsilon rules of
symbols that lost theirs before, and it may. -/
lemma step (h : Covers g₀ past rules) (ha : ⟨a, []⟩ ∈ rules) (hne : a ≠ g₀.start)
    (hfrom : ∀ r ∈ rules', r ∈ rules ∨
      (∃ o ∈ rules, o.left = r.left ∧ Drops (· = a) o.right r.right) ∧ r.right ≠ [r.left])
    (hmem : ∀ r ∈ rules, r ≠ ⟨a, []⟩ → r ∈ rules')
    (hdropped : ∀ o ∈ rules, ∀ v, Drops (· = a) o.right v → v ≠ [o.left] → ¬(v = [] ∧ o.left ∈ past ++ [a]) →
      ⟨o.left, v⟩ ∈ rules') : Covers g₀ (past ++ [a]) rules' := by
  have hvanishing := h.vanishing ha hne
  have hpast : ∀ b, b ∈ past ++ [a] ↔ b ∈ past ∨ b = a := by simp
  have hclosed : ∀ o ∈ rules, ∀ v, Drops (· ∈ past ++ [a]) o.right v →
      ⟨o.left, v⟩ ∈ rules' ∨ v = [o.left] ∨ v = [] ∧ o.left ∈ past ++ [a] := by
    intro o ho v hv
    by_cases hloop : v = [o.left]
    · exact .inr (.inl hloop)
    by_cases hepsilon : v = [] ∧ o.left ∈ past ++ [a]
    · exact .inr (.inr hepsilon)
    obtain ⟨m, hm, hmv⟩ := (hv.mono fun b => (hpast b).mp).split
    rcases h.closed o ho m hm with hrule | rfl | ⟨rfl, hleft⟩
    · exact .inl (hdropped _ hrule v hmv hloop hepsilon)
    · rcases hmv.singleton_cases with hv | ⟨hv, hleft⟩
      · exact absurd hv hloop
      · exact absurd ⟨hv, (hpast _).mpr (.inr hleft)⟩ hepsilon
    · exact absurd ⟨hmv.eq_nil_of_nil, (hpast _).mpr (.inl hleft)⟩ hepsilon
  constructor
  · intro r hr
    rcases hfrom r hr with hr | ⟨⟨o, ho, hleft, hdrops⟩, -⟩
    · exact h.sound r hr
    · obtain ⟨p, hp, hpo, hpdrops⟩ := h.sound o ho
      exact ⟨p, hp, hpo.trans hleft, hpdrops.trans (hdrops.mono fun s hs => hs ▸ hvanishing)⟩
  · intro r hr hloop
    rcases hfrom r hr with hr | ⟨-, hnot⟩
    · exact h.loop_mem r hr hloop
    · exact absurd hloop hnot
  · intro r hr
    rcases h.kept r hr with hr | ⟨hright, hleft⟩
    · by_cases hra : r = ⟨a, []⟩
      · exact .inr ⟨by rw [hra], by simp [hra]⟩
      · exact .inl (hmem r hr hra)
    · exact .inr ⟨hright, List.mem_append_left _ hleft⟩
  · intro r hr v hv
    rcases hfrom r hr with hr | ⟨⟨o, ho, hleft, hdrops⟩, -⟩
    · exact hclosed r hr v hv
    · rw [← hleft]
      exact hclosed o ho v ((hdrops.mono fun b hb => (hpast b).mpr (.inr hb)).trans hv)
  · intro b hb
    rcases (hpast b).mp hb with hb | rfl
    · exact h.past_vanishing b hb
    · exact hvanishing

lemma mem_past_of_vanishing (h : Covers g₀ past rules) (hnone : ∀ r ∈ rules, r.right = [] → r.left = g₀.start)
    (hs : g₀.Vanishing s) : s ∈ past := by
  induction hs with
  | @intro r mem ne_start _ ih =>
    rcases h.kept r mem with hr | ⟨-, hr⟩
    · rcases h.closed r hr [] (Drops.nil_iff.mpr ih) with hmem | hloop | ⟨-, hpast⟩
      · exact absurd (hnone _ hmem rfl) ne_start
      · simp at hloop
      · exact hpast
    · exact hr

lemma mem_iff (h : Covers g₀ past rules) (hnone : ∀ r ∈ rules, r.right = [] → r.left = g₀.start) (r : Rule) :
    r ∈ rules ↔ (∃ o ∈ g₀.rules, o.left = r.left ∧ Drops g₀.Vanishing o.right r.right) ∧
      (r.right = [r.left] → r ∈ g₀.rules) ∧ (r.right = [] → r.left = g₀.start) := by
  constructor
  · intro hr
    exact ⟨h.sound r hr, h.loop_mem r hr, hnone r hr⟩
  · rintro ⟨⟨o, ho, hleft, hdrops⟩, hloop, hepsilon⟩
    have hkept : ∀ p ∈ g₀.rules, p.left = r.left → (p.right = [] → r.right = []) → p ∈ rules := by
      intro p hp hpr hnil
      rcases h.kept p hp with hmem | ⟨hright, hpast⟩
      · exact hmem
      · rw [hpr, hepsilon (hnil hright)] at hpast
        exact absurd rfl (h.past_vanishing _ hpast).ne_start
    have ho' := hkept o ho hleft fun hnil => by
      rw [hnil] at hdrops
      exact hdrops.eq_nil_of_nil
    rcases h.closed o ho' r.right (hdrops.mono fun s => h.mem_past_of_vanishing hnone) with hr | hr | ⟨hr, hpast⟩
    · rwa [hleft] at hr
    · rw [hleft] at hr
      exact hkept r (hloop hr) rfl id
    · rw [hleft, hepsilon hr] at hpast
      exact absurd rfl (h.past_vanishing _ hpast).ne_start

end Covers

/-! ### One round -/

lemma mem_erasureRules : r ∈ g.erasureRules past a ↔
    (∃ o ∈ g.rules, o.left = r.left ∧ Drops (· = a) o.right r.right ∧ r.right ≠ o.right) ∧
      r.right ≠ [r.left] ∧ ¬(r.right = [] ∧ r.left ∈ past ++ [a]) := by
  unfold erasureRules
  rw [List.mem_filter, List.mem_flatMap]
  apply and_congr
  · constructor
    · rintro ⟨o, ho, hr⟩
      obtain ⟨right, hright, rfl⟩ := List.mem_map.mp hr
      exact ⟨o, ho, rfl, mem_dropVariants.mp hright⟩
    · rintro ⟨o, ho, hleft, hdrops⟩
      exact ⟨o, ho, List.mem_map.mpr ⟨r.right, mem_dropVariants.mpr hdrops, by rw [hleft]⟩⟩
  · simp [Rule.isLoop, Rule.isEpsilon, imp_iff_not_or]

/-- One round: a symbol loses its epsilon rule, and the others make up for it. -/
structure ErasureStep (past : List Symbol) (a : Symbol) (g g' : Grammar) : Prop where
  rulesOnly : RulesOnly g g'
  mem_rules : ∀ r, r ∈ g'.rules ↔ r ≠ ⟨a, []⟩ ∧ (r ∈ g.rules ∨
    (∃ o ∈ g.rules, o.left = r.left ∧ Drops (· = a) o.right r.right) ∧ r.right ≠ [r.left] ∧
      ¬(r.right = [] ∧ r.left ∈ past))

lemma Consistent.succeeds_eraseSymbol (hg : g.Consistent) (ha : ⟨a, []⟩ ∈ g.rules) :
    Succeeds (eraseSymbol past a) g fun _ g' => g'.Consistent ∧ ErasureStep past a g g' ∧
      ∃ added, g'.rules = g.rules.filter (· != ⟨a, []⟩) ++ added ∧
        ∀ r ∈ added, r ∈ g.erasureRules past a ∧ r ∉ g.rules := by
  apply Succeeds.get_bind
  refine Succeeds.bind (hg.succeeds_insertMissingRules ?_ ?_) ?_
  · intro r hr
    obtain ⟨⟨o, ho, hleft, -⟩, -⟩ := mem_erasureRules.mp hr
    exact hleft ▸ hg.left_mem o ho
  · intro r hr s hs
    obtain ⟨⟨o, ho, -, hdrops, -⟩, -⟩ := mem_erasureRules.mp hr
    exact hg.right_mem o ho s (hdrops.sublist.subset hs)
  rintro _ g₁ ⟨hg₁, added, hc₁, hadded⟩
  have hrules₁ : g₁.rules = g.rules ++ added := congrArg Contents.rules hc₁
  refine (hg₁.succeeds_eraseRule (by simp [hrules₁, ha])).mono ?_
  rintro _ g₂ ⟨hg₂, hc₂⟩
  have hrules₂ : g₂.rules = g₁.rules.filter (· != ⟨a, []⟩) := congrArg Contents.rules hc₂
  have hlisted : g₂.rules = g.rules.filter (· != ⟨a, []⟩) ++ added.filter (· != ⟨a, []⟩) := by
    rw [hrules₂, hrules₁, List.filter_append]
  refine ⟨hg₂, ⟨?_, fun r => ?_⟩, _, hlisted, fun r hr => (hadded r).mp (List.mem_of_mem_filter hr)⟩
  · unfold RulesOnly
    rw [hrules₂, hc₂, hc₁]
    rfl
  rw [hrules₂, List.mem_filter, hrules₁, List.mem_append, hadded, mem_erasureRules, bne_iff_ne, and_comm]
  apply and_congr_right
  intro hne
  constructor
  · rintro (hr | ⟨⟨⟨o, ho, hleft, hdrops, -⟩, hloop, hepsilon⟩, -⟩)
    · exact .inl hr
    · exact .inr ⟨⟨o, ho, hleft, hdrops⟩, hloop, fun h => hepsilon ⟨h.1, List.mem_append_left _ h.2⟩⟩
  · rintro (hr | ⟨⟨o, ho, hleft, hdrops⟩, hloop, hepsilon⟩)
    · exact .inl hr
    · by_cases hr : r ∈ g.rules
      · exact .inl hr
      refine .inr ⟨⟨⟨o, ho, hleft, hdrops, fun h => hr ?_⟩, hloop, ?_⟩, hr⟩
      · rwa [show r = o from Rule.ext hleft.symm h]
      · rintro ⟨hnil, hmem⟩
        rcases List.mem_append.mp hmem with hmem | hmem
        · exact hepsilon ⟨hnil, hmem⟩
        · exact hne (Rule.ext (List.mem_singleton.mp hmem) hnil)

/-! ### All rounds -/

/-- What is known of a grammar after symbols lost their epsilon rules, compared with the grammar before. -/
structure Erasing (g₀ : Grammar) (past : List Symbol) (g : Grammar) : Prop where
  rulesOnly : RulesOnly g₀ g
  sound : ∀ r ∈ g.rules, ∃ o ∈ g₀.rules, o.left = r.left ∧ Drops g₀.Vanishing o.right r.right
  loop_mem : ∀ r ∈ g.rules, r.right = [r.left] → r ∈ g₀.rules
  kept : ∀ r ∈ g₀.rules, r ∈ g.rules ∨ r.right = [] ∧ r.left ∈ past
  closed : ∀ r ∈ g.rules, ∀ v, Drops (· ∈ past) r.right v →
    ⟨r.left, v⟩ ∈ g.rules ∨ v = [r.left] ∨ v = [] ∧ r.left ∈ past
  past_nodup : past.Nodup
  past_vanishing : ∀ a ∈ past, g₀.Vanishing a
  past_done : ∀ a ∈ past, ⟨a, []⟩ ∉ g.rules

namespace Erasing

variable {g₀ : Grammar}

lemma covers (h : Erasing g₀ past g) : Covers g₀ past {r | r ∈ g.rules} :=
  ⟨h.sound, h.loop_mem, h.kept, h.closed, h.past_vanishing⟩

lemma of_covers (h : Covers g₀ past {r | r ∈ g.rules}) (hrules : RulesOnly g₀ g) (hnodup : past.Nodup)
    (hdone : ∀ a ∈ past, ⟨a, []⟩ ∉ g.rules) : Erasing g₀ past g :=
  ⟨hrules, h.sound, h.loop_mem, h.kept, h.closed, hnodup, h.past_vanishing, hdone⟩

lemma begin (g₀ : Grammar) : Erasing g₀ [] g₀ :=
  .of_covers (.begin g₀) rfl .nil (by simp)

lemma step (h : Erasing g₀ past g) (ha : ⟨a, []⟩ ∈ g.rules) (hne : a ≠ g.start)
    (hround : ErasureStep past a g g') : Erasing g₀ (past ++ [a]) g' := by
  have hnew : a ∉ past := fun hmem => h.past_done a hmem ha
  have hcovers : Covers g₀ (past ++ [a]) {r | r ∈ g'.rules} := by
    refine h.covers.step ha (h.rulesOnly.start_eq ▸ hne) ?_ ?_ ?_
    · intro r hr
      obtain ⟨-, hr | ⟨hdropped, hloop, -⟩⟩ := (hround.mem_rules r).mp hr
      · exact .inl hr
      · exact .inr ⟨hdropped, hloop⟩
    · intro r hr hra
      exact (hround.mem_rules r).mpr ⟨hra, .inl hr⟩
    · intro o ho v hv hloop hepsilon
      refine (hround.mem_rules _).mpr ⟨fun he => ?_, .inr ⟨⟨o, ho, rfl, hv⟩, hloop, fun he => ?_⟩⟩
      · obtain ⟨hleft, hnil⟩ := Rule.mk.inj he
        exact hepsilon ⟨hnil, by simp [hleft]⟩
      · exact hepsilon ⟨he.1, List.mem_append_left _ he.2⟩
  refine .of_covers hcovers (h.rulesOnly.trans hround.rulesOnly) ?_ ?_
  · exact (List.perm_append_singleton a past).nodup_iff.mpr (List.nodup_cons.mpr ⟨hnew, h.past_nodup⟩)
  · intro b hb hmem
    obtain ⟨hba, hold⟩ := (hround.mem_rules _).mp hmem
    rcases List.mem_append.mp hb with hb | hb
    · rcases hold with hold | ⟨-, -, hnot⟩
      · exact h.past_done b hb hold
      · exact hnot ⟨rfl, hb⟩
    · exact hba (by rw [List.mem_singleton.mp hb])

end Erasing

/-- The rules after erasure, in terms of those before. -/
structure Erased (g g' : Grammar) : Prop where
  rulesOnly : RulesOnly g g'
  mem_rules : ∀ r, r ∈ g'.rules ↔ (∃ o ∈ g.rules, o.left = r.left ∧ Drops g.Vanishing o.right r.right) ∧
    (r.right = [r.left] → r ∈ g.rules) ∧ (r.right = [] → r.left = g.start)

lemma Erasing.erased {g₀ : Grammar} (h : Erasing g₀ past g) (hnone : g.EpsilonAtStart) : Erased g₀ g :=
  ⟨h.rulesOnly, h.covers.mem_iff fun r hr hright => h.rulesOnly.start_eq ▸ hnone r hr hright⟩

lemma epsilonAtStart (h : g.erasable? = none) : g.EpsilonAtStart := by
  intro r hr hright
  have hfind := List.find?_eq_none.mp (Option.map_eq_none_iff.mp h) r hr
  simpa [Rule.isEpsilon, hright] using hfind

lemma mem_of_erasable? (h : g.erasable? = some a) : ⟨a, []⟩ ∈ g.rules ∧ a ≠ g.start := by
  obtain ⟨r, hfind, rfl⟩ := Option.map_eq_some_iff.mp h
  have hr := List.find?_some hfind
  simp only [Rule.isEpsilon, Bool.and_eq_true, List.isEmpty_iff, bne_iff_ne] at hr
  have hmem := List.mem_of_find?_eq_some hfind
  rw [show r = ⟨r.left, []⟩ from Rule.ext rfl hr.1] at hmem
  exact ⟨hmem, hr.2⟩

/-- Erasure runs until no epsilon rule is left to remove; no symbol comes up twice. What every round keeps holds at
the end. -/
lemma Consistent.succeeds_eraseErasable_keeping (hg : g.Consistent) (inv : Grammar → Prop) (hinv : inv g)
    (hstep : ∀ past a h h', Erasing g past h → ErasureStep past a h h' →
      (∃ added, h'.rules = h.rules.filter (· != ⟨a, []⟩) ++ added ∧
        ∀ r ∈ added, r ∈ h.erasureRules past a ∧ r ∉ h.rules) → inv h → inv h') :
    Succeeds eraseErasable g fun past g' =>
      g'.Consistent ∧ Erasing g past g' ∧ inv g' ∧ g'.erasable? = none := by
  apply Succeeds.get_bind
  refine (Succeeds.exhaust (fun past h => h.Consistent ∧ Erasing g past h ∧ inv h)
    (fun past _ => g.nonterminals.length - past.length) ?_ ⟨hg, .begin g, hinv⟩ (by simp)).mono ?_
  · rintro past a h ⟨hh, hpast, hinv⟩ hfind
    obtain ⟨ha, hne⟩ := mem_of_erasable? hfind
    refine (hh.succeeds_eraseSymbol ha).mono ?_
    rintro _ h' ⟨hh', hround, hlisted⟩
    have hpast' := hpast.step ha hne hround
    refine ⟨⟨hh', hpast', hstep past a h h' hpast hround hlisted hinv⟩, ?_⟩
    have hle := (hpast'.past_nodup.subperm fun b hb => (hpast'.past_vanishing b hb).mem_nonterminals hg).length_le
    rw [List.length_append, List.length_singleton] at hle ⊢
    omega
  · rintro past g' ⟨⟨hg', hpast, hinv'⟩, hfind⟩
    exact ⟨hg', hpast, hinv', hfind⟩

lemma Consistent.succeeds_eraseErasable (hg : g.Consistent) :
    Succeeds eraseErasable g fun past g' => g'.Consistent ∧ Erasing g past g' ∧ g'.erasable? = none := by
  refine (hg.succeeds_eraseErasable_keeping (fun _ => True) trivial fun _ _ _ _ _ _ _ _ => trivial).mono ?_
  rintro past g' ⟨hg', hpast, -, hfind⟩
  exact ⟨hg', hpast, hfind⟩

theorem Consistent.succeeds_eraseEpsilons (hg : g.Consistent) :
    Succeeds eraseEpsilons g fun _ g' => g'.Consistent ∧ Erased g g' ∧ g'.erasable? = none := by
  refine Succeeds.internal (Succeeds.discard (hg.succeeds_eraseErasable.mono ?_))
  rintro past g' ⟨hg', hinv, hfind⟩
  exact ⟨hg', hinv.erased (epsilonAtStart hfind), hfind⟩

/-! ### What erasure means -/

namespace Erased

lemma derives_old (h : Erased g g') {u w : List Symbol} (hd : Derives g'.rules u w) : Derives g.rules u w := by
  refine hd.of_rules fun r hr => ?_
  obtain ⟨⟨o, ho, hleft, hdrops⟩, -⟩ := (h.mem_rules r).mp hr
  rw [← hleft]
  exact (Derives.of_mem ho).trans (derives_of_drops hdrops)

lemma exists_yields (h : Erased g g') {u w : List Symbol} (hy : Yields g.rules u w) :
    ∃ v, Drops g.Vanishing u v ∧ Yields g'.rules v w := by
  induction hy with
  | nil => exact ⟨[], .nil, .nil⟩
  | keep s _ ih =>
    obtain ⟨v, hdrops, hv⟩ := ih
    exact ⟨s :: v, .keep s hdrops, .keep s hv⟩
  | @expand r u x w mem _ _ ih₁ ih₂ =>
    obtain ⟨right, hright, hx⟩ := ih₁
    obtain ⟨v, hdrops, hv⟩ := ih₂
    by_cases hloop : right = [r.left]
    · rw [hloop] at hx
      exact ⟨r.left :: v, .keep _ hdrops, hx.append hv⟩
    by_cases hepsilon : right = [] ∧ r.left ≠ g.start
    · obtain ⟨rfl, hne⟩ := hepsilon
      rw [hx.eq_nil_of_nil]
      exact ⟨v, .drop (.intro mem hne (Drops.nil_iff.mp hright)) hdrops, hv⟩
    · have hmem : ⟨r.left, right⟩ ∈ g'.rules := by
        refine (h.mem_rules _).mpr ⟨⟨r, mem, rfl, hright⟩, fun he => absurd he hloop, fun he => ?_⟩
        by_contra hne
        exact hepsilon ⟨he, hne⟩
      exact ⟨r.left :: v, .keep _ hdrops, (Yields.of_mem hmem hx).append hv⟩

lemma derives_iff (h : Erased g g') {w : List Symbol} (hs : ¬g.Vanishing s ∨ w ≠ []) :
    Derives g'.rules [s] w ↔ Derives g.rules [s] w := by
  refine ⟨h.derives_old, fun hd => ?_⟩
  obtain ⟨v, hdrops, hv⟩ := h.exists_yields (derives_iff_yields.mp hd)
  rcases hdrops.singleton_cases with rfl | ⟨rfl, hvanishing⟩
  · exact derives_iff_yields.mpr hv
  · exact absurd hv.eq_nil_of_nil (hs.resolve_left (absurd hvanishing))

lemma generates_iff (h : Erased g g') (w : List Symbol) : g'.Generates w ↔ g.Generates w := by
  unfold Generates GeneratesFrom
  rw [h.rulesOnly.start_eq, h.rulesOnly.terminals_eq, h.derives_iff (.inl fun hs => hs.ne_start rfl)]

lemma terminalsAlone (h : Erased g g') (halone : g.TerminalsAlone) : g'.TerminalsAlone := by
  intro r hr hlength x hx
  obtain ⟨⟨o, ho, -, hdrops⟩, -⟩ := (h.mem_rules r).mp hr
  rw [h.rulesOnly.terminals_eq]
  exact halone o ho (hlength.trans hdrops.sublist.length_le) x (hdrops.sublist.subset hx)

lemma rulesShort (h : Erased g g') (hshort : g.RulesShort) : g'.RulesShort := by
  intro r hr
  obtain ⟨⟨o, ho, -, hdrops⟩, -⟩ := (h.mem_rules r).mp hr
  exact hdrops.sublist.length_le.trans (hshort o ho)

lemma startUnused (h : Erased g g') (hstart : g.StartUnused) : g'.StartUnused := by
  intro r hr hx
  obtain ⟨⟨o, ho, -, hdrops⟩, -⟩ := (h.mem_rules r).mp hr
  rw [h.rulesOnly.start_eq] at hx
  exact hstart o ho (hdrops.sublist.subset hx)

end Erased

end ContextFree.Grammar

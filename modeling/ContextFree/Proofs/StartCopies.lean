import ContextFree.Proofs.Renaming
import ContextFree.Proofs.StageResults

/-!
# Conversion of normal forms

What a conversion does to a grammar in normal form comes down to its fresh start: the new start symbol takes over
the rules of the old one, whose epsilon rule is erased, and the result is pruned. If the grammar is the result of a
conversion itself, nothing of the old start symbol survives the pruning, and so it has only changed its name.
-/

namespace ContextFree

namespace Grammar

open BreadthFirst (LeadsTo)

variable {g g' g₁ g₂ g₃ k k' : Grammar} {r o : Rule} {m n s z : Symbol}

/-! ### Normal form as conditions -/

/-- Normal form by the conditions of the stages. The start symbol may stand on right sides if it has no epsilon
rule. -/
structure NormalForm (g : Grammar) : Prop where
  terminalsAlone : g.TerminalsAlone
  rulesShort : g.RulesShort
  epsilonAtStart : g.EpsilonAtStart
  unitFree : g.UnitFree
  startUnused : ⟨g.start, []⟩ ∈ g.rules → g.StartUnused

lemma Consistent.normalForm (hg : g.Consistent) (h : g.checkNormal = .ok ()) : g.NormalForm := by
  obtain ⟨hshape, hstart⟩ := hg.violation?_eq_none.mp (checkNormal_eq_ok_iff.mp h)
  constructor
  · intro r hr hlength s hs
    cases hshape r hr with
    | epsilon => cases hs
    | terminal => simp at hlength
    | pair _ hb hc =>
      rcases List.mem_pair.mp hs with rfl | rfl
      · exact fun ht => hg.disjoint ht hb
      · exact fun ht => hg.disjoint ht hc
  · intro r hr
    cases hshape r hr <;> simp
  · intro r hr hright
    cases hshape r hr with
    | epsilon => rfl
    | terminal => cases hright
    | pair => cases hright
  · intro r hr s hright
    cases hshape r hr with
    | epsilon => cases hright
    | terminal _ ht =>
      cases hright
      exact hg.disjoint ht
    | pair => cases hright
  · intro hepsilon r hr hx
    exact hstart ⟨hepsilon, r, hr, hx⟩

/-! ### A copy of the start symbol -/

/-- A new start symbol has the rules of the old one, and the old one keeps those that are not its epsilon rule. -/
structure StartCopied (z : Symbol) (g g' : Grammar) : Prop where
  fresh : z ∉ g.symbols
  start_eq : g'.start = z
  terminals_eq : g'.terminals = g.terminals
  mem_nonterminals : ∀ n, n ∈ g'.nonterminals ↔ n ∈ g.nonterminals ∨ n = z
  mem_rules : ∀ r, r ∈ g'.rules ↔
    (r ∈ g.rules ∧ r ≠ ⟨g.start, []⟩) ∨ ∃ o ∈ g.rules, o.left = g.start ∧ ⟨z, o.right⟩ = r

/-- The rules of a grammar with a copy of its start symbol. -/
def copiedRules (g : Grammar) (z : Symbol) : List Rule :=
  g.rules.filter (· != ⟨g.start, []⟩) ++ (g.rulesWithLeft g.start).map fun r => ⟨z, r.right⟩

lemma mem_copiedRules : r ∈ g.copiedRules z ↔
    (r ∈ g.rules ∧ r ≠ ⟨g.start, []⟩) ∨ ∃ o ∈ g.rules, o.left = g.start ∧ ⟨z, o.right⟩ = r := by
  simp [copiedRules, rulesWithLeft, and_assoc]

lemma Consistent.nodup_copiedRules (hg : g.Consistent) (hz : z ∉ g.symbols) : (g.copiedRules z).Nodup := by
  apply List.nodup_append'.mpr
  refine ⟨hg.rules_nodup.filter _, ?_, ?_⟩
  · apply (hg.rules_nodup.filter _).map_on
    intro o ho p hp heq
    have hleft : ∀ r ∈ g.rulesWithLeft g.start, r.left = g.start := by simp [rulesWithLeft]
    exact Rule.ext ((hleft o ho).trans (hleft p hp).symm) (Rule.mk.inj heq).2
  · intro o ho hcopy
    obtain ⟨p, -, rfl⟩ := List.mem_map.mp hcopy
    exact hg.left_ne_of_fresh hz (List.mem_of_mem_filter ho) rfl

lemma Consistent.exists_startCopied (hg : g.Consistent) (hz : z ∉ g.symbols) (hne : z ≠ "") :
    ∃ k, Grammar.ofParts z g.terminals g.nonterminals (g.copiedRules z) g.namer = .ok k ∧ StartCopied z g k := by
  have hleft : ∀ r ∈ g.copiedRules z, r.left ∈ z :: g.nonterminals := by
    intro r hr
    rcases mem_copiedRules.mp hr with ⟨hr, -⟩ | ⟨o, -, -, rfl⟩
    · exact List.mem_cons_of_mem _ (hg.left_mem r hr)
    · exact List.mem_cons_self
  have hright : ∀ r ∈ g.copiedRules z, ∀ s ∈ r.right, s ∈ z :: g.symbols := by
    intro r hr s hs
    apply List.mem_cons_of_mem
    rcases mem_copiedRules.mp hr with ⟨hr, -⟩ | ⟨o, ho, -, rfl⟩
    · exact hg.right_mem r hr s hs
    · exact hg.right_mem o ho s hs
  obtain ⟨k, hk, hcontents⟩ := ofParts_eq_ok z g.terminals g.nonterminals (g.copiedRules z) g.namer
    (List.nodup_cons.mpr ⟨hz, hg.symbols_nodup⟩) (List.forall_mem_cons.mpr ⟨hne, hg.symbols_ne_empty⟩) hleft hright
    (hg.nodup_copiedRules hz)
  obtain ⟨hstart, hterminals, hnonterminals, hrules, -⟩ := Contents.mk.inj hcontents
  refine ⟨k, hk, hz, hstart, hterminals, ?_, ?_⟩
  · intro n
    rw [hnonterminals, List.mem_cons, or_comm]
  · intro r
    rw [hrules]
    exact mem_copiedRules

lemma StartCopied.mem_of_ne (h : StartCopied z g k) (hr : r ∈ g.rules) (hleft : r.left ≠ g.start) : r ∈ k.rules :=
  (h.mem_rules r).mpr (.inl ⟨hr, fun heq => hleft (congrArg Rule.left heq)⟩)

lemma StartCopied.copy_mem (h : StartCopied z g k) (hr : r ∈ g.rules) (hleft : r.left = g.start) :
    ⟨z, r.right⟩ ∈ k.rules :=
  (h.mem_rules _).mpr (.inr ⟨r, hr, hleft, rfl⟩)

lemma StartCopied.renames (hk : StartCopied z g k) (hk' : StartCopied z g k') (hc : k.Consistent)
    (hc' : k'.Consistent) : Renames (.refl Symbol) k k' := by
  apply Renames.of_perm
  · rw [hk.start_eq, hk'.start_eq]
  · rw [hk.terminals_eq, hk'.terminals_eq]
  · apply (List.perm_ext_iff_of_nodup hc'.nonterminals_nodup hc.nonterminals_nodup).mpr
    intro n
    rw [hk.mem_nonterminals, hk'.mem_nonterminals]
  · apply (List.perm_ext_iff_of_nodup hc'.rules_nodup hc.rules_nodup).mpr
    intro r
    rw [hk.mem_rules, hk'.mem_rules]

/-! ### The stages on a normal form -/

/-- A normal form, with a fresh start and then with its epsilon rules erased. -/
structure StartErased (z : Symbol) (g g₁ g₂ : Grammar) : Prop where
  normal : g.NormalForm
  step : StartStep z g g₁
  erased : Erased g₁ g₂
  consistent : g₂.Consistent

namespace StartErased

variable (h : StartErased z g g₁ g₂)

include h

lemma eq_start_of_vanishing (hs : g₁.Vanishing s) : s = g.start ∧ ⟨g.start, []⟩ ∈ g.rules := by
  induction hs with
  | @intro r mem ne_start _ ih =>
    rcases h.step.mem_rules.mp mem with hr | rfl
    · match hright : r.right with
      | [] =>
        have hleft := h.normal.epsilonAtStart r hr hright
        have hrule : r = ⟨g.start, []⟩ := Rule.ext hleft hright
        exact ⟨hleft, hrule ▸ hr⟩
      | s :: rest =>
        obtain ⟨rfl, hepsilon⟩ := ih s (by simp [hright])
        exact absurd (by simp [hright]) (h.normal.startUnused hepsilon r hr)
    · exact absurd h.step.start_eq.symm ne_start

lemma not_vanishing_of_mem_right (hr : r ∈ g.rules) (hs : s ∈ r.right) : ¬g₁.Vanishing s := by
  intro hvanishing
  obtain ⟨rfl, hepsilon⟩ := h.eq_start_of_vanishing hvanishing
  exact h.normal.startUnused hepsilon r hr hs

lemma mem_rules : r ∈ g₂.rules ↔
    (r ∈ g.rules ∧ r ≠ ⟨g.start, []⟩) ∨ r = ⟨z, [g.start]⟩ ∨ (r = ⟨z, []⟩ ∧ ⟨g.start, []⟩ ∈ g.rules) := by
  rw [h.erased.mem_rules, h.step.start_eq]
  constructor
  · rintro ⟨⟨o, ho, hleft, hdrops⟩, -, hepsilon⟩
    rcases h.step.mem_rules.mp ho with ho | rfl
    · have hright := hdrops.eq_of_none fun s hs => h.not_vanishing_of_mem_right ho hs
      obtain rfl : r = o := Rule.ext hleft.symm hright
      refine .inl ⟨ho, ?_⟩
      rintro rfl
      exact h.step.start_ne (hepsilon rfl)
    · rcases hdrops.singleton_cases with hright | ⟨hright, hvanishing⟩
      · exact .inr (.inl (Rule.ext hleft.symm hright))
      · exact .inr (.inr ⟨Rule.ext hleft.symm hright, (h.eq_start_of_vanishing hvanishing).2⟩)
  · rintro (⟨hr, hne⟩ | rfl | ⟨rfl, hmem⟩)
    · refine ⟨⟨r, h.step.mem_rules.mpr (.inl hr), rfl, .refl _⟩, fun _ => h.step.mem_rules.mpr (.inl hr), ?_⟩
      intro hright
      exact absurd (Rule.ext (h.normal.epsilonAtStart r hr hright) hright) hne
    · have hmem := h.step.mem_rules.mpr (.inr rfl)
      exact ⟨⟨_, hmem, rfl, .refl _⟩, fun _ => hmem, by simp⟩
    · have hvanishing : g₁.Vanishing g.start := by
        apply Vanishing.intro (h.step.mem_rules.mpr (.inl hmem))
        · rw [h.step.start_eq]
          exact h.step.start_ne
        · simp
      exact ⟨⟨_, h.step.mem_rules.mpr (.inr rfl), rfl, .drop hvanishing .nil⟩, by simp, fun _ => rfl⟩

lemma mem_unitSuccessors : m ∈ g₂.unitSuccessors n ↔ n = z ∧ m = g.start := by
  rw [h.consistent.mem_unitSuccessors, h.mem_rules, h.erased.rulesOnly.nonterminals_eq,
    h.step.nonterminals_eq, List.mem_append, List.mem_singleton]
  constructor
  · rintro ⟨⟨hr, -⟩ | heq | ⟨heq, -⟩, hm⟩
    · rcases hm with hm | rfl
      · exact absurd hm (h.normal.unitFree _ hr m rfl)
      · exact absurd (List.mem_singleton_self _) (h.step.notMem_right hr)
    · simpa using heq
    · simp at heq
  · rintro ⟨rfl, rfl⟩
    exact ⟨.inr (.inl rfl), .inl h.step.consistent.start_mem⟩

lemma eq_or_of_leadsTo (hlead : LeadsTo g₂.unitSuccessors n m) : m = n ∨ (n = z ∧ m = g.start) := by
  rcases hlead.cases_tail with rfl | ⟨k, hlead, hm⟩
  · exact .inl rfl
  obtain ⟨hkz, hmstart⟩ := h.mem_unitSuccessors.mp hm
  rcases hlead.cases_tail with hkn | ⟨l, -, hk⟩
  · exact .inr ⟨hkn.symm.trans hkz, hmstart⟩
  · obtain ⟨-, hkstart⟩ := h.mem_unitSuccessors.mp hk
    exact absurd (hkstart.symm.trans hkz) h.step.start_ne

lemma not_isUnit (ho : o ∈ g.rules) (hright : r.right = o.right) : g₂.isUnit r = false := by
  rw [← Bool.not_eq_true, h.consistent.isUnit_iff, h.erased.rulesOnly.nonterminals_eq, h.step.nonterminals_eq]
  rintro ⟨s, hs, hsingle⟩
  rw [hright] at hsingle
  rcases List.mem_append.mp hs with hs | hs
  · exact h.normal.unitFree o ho s hsingle hs
  · apply h.step.notMem_right ho
    rw [hsingle, ← List.mem_singleton.mp hs]
    exact List.mem_singleton_self s

lemma isUnit_of_eq (hr : r = ⟨z, [g.start]⟩) : g₂.isUnit r = true := by
  have hmem : g.start ∈ g₂.nonterminals := by
    rw [h.erased.rulesOnly.nonterminals_eq, h.step.nonterminals_eq]
    exact List.mem_append_left _ h.step.consistent.start_mem
  exact h.consistent.isUnit_iff.mpr ⟨g.start, hmem, congrArg Rule.right hr⟩

lemma mem_rules_of_collapsed (hcollapsed : Collapsed g₂ g₃) : r ∈ g₃.rules ↔
    (r ∈ g.rules ∧ r ≠ ⟨g.start, []⟩) ∨ ∃ o ∈ g.rules, o.left = g.start ∧ ⟨z, o.right⟩ = r := by
  rw [hcollapsed.mem_rules]
  constructor
  · rintro ⟨hunit, m, hlead, hm⟩
    rcases h.eq_or_of_leadsTo hlead with rfl | ⟨hleft, rfl⟩
    · rcases h.mem_rules.mp hm with hr | hr | ⟨hr, hmem⟩
      · exact .inl hr
      · rw [h.isUnit_of_eq hr] at hunit
        cases hunit
      · exact .inr ⟨_, hmem, rfl, hr.symm⟩
    · rcases h.mem_rules.mp hm with ⟨hr, -⟩ | hr | ⟨hr, -⟩
      · exact .inr ⟨_, hr, rfl, Rule.ext hleft.symm rfl⟩
      · exact absurd (congrArg Rule.left hr) h.step.start_ne
      · exact absurd (congrArg Rule.left hr) h.step.start_ne
  · rintro (⟨hr, hne⟩ | ⟨o, ho, hleft, rfl⟩)
    · exact ⟨h.not_isUnit hr rfl, r.left, .refl, h.mem_rules.mpr (.inl ⟨hr, hne⟩)⟩
    · refine ⟨h.not_isUnit ho rfl, ?_⟩
      by_cases hepsilon : o = ⟨g.start, []⟩
      · subst hepsilon
        exact ⟨z, .refl, h.mem_rules.mpr (.inr (.inr ⟨rfl, ho⟩))⟩
      · refine ⟨g.start, .single (h.mem_unitSuccessors.mpr ⟨rfl, rfl⟩), ?_⟩
        rw [← hleft]
        exact h.mem_rules.mpr (.inl ⟨ho, hepsilon⟩)

lemma startCopied (hcollapsed : Collapsed g₂ g₃) : StartCopied z g g₃ := by
  constructor
  · exact h.step.fresh
  · rw [hcollapsed.rulesOnly.start_eq, h.erased.rulesOnly.start_eq, h.step.start_eq]
  · rw [hcollapsed.rulesOnly.terminals_eq, h.erased.rulesOnly.terminals_eq, h.step.terminals_eq]
  · intro n
    rw [hcollapsed.rulesOnly.nonterminals_eq, h.erased.rulesOnly.nonterminals_eq, h.step.nonterminals_eq,
      List.mem_append, List.mem_singleton]
  · intro r
    exact h.mem_rules_of_collapsed hcollapsed

end StartErased

/-! ### Pruning when the old start symbol has become useless -/

/-- A copy of the start symbol in a grammar without dead symbols that uses its start symbol in no rule. -/
structure StartReplaced (z : Symbol) (g k : Grammar) : Prop extends StartCopied z g k where
  consistent : g.Consistent
  startUnused : g.StartUnused
  nothingDead : g.NothingDead

namespace StartReplaced

variable (h : StartReplaced z g k)

include h

lemma start_ne : g.start ≠ z :=
  fun heq => h.fresh (heq ▸ List.mem_append_right _ h.consistent.start_mem)

lemma notMem_right (hr : r ∈ k.rules) : g.start ∉ r.right ∧ z ∉ r.right := by
  rcases (h.mem_rules r).mp hr with ⟨hr, -⟩ | ⟨o, ho, -, rfl⟩
  · exact ⟨h.startUnused r hr, h.consistent.notMem_right_of_fresh h.fresh hr⟩
  · have hz := h.consistent.notMem_right_of_fresh h.fresh ho
    exact ⟨h.startUnused o ho, hz⟩

lemma eq_start_of_dead (hn : k.Dead n) : n = g.start := by
  induction hn with
  | @intro n mem ne_start block block_mem _ ih =>
    rw [h.start_eq] at ne_start
    have hn := ((h.mem_nonterminals n).mp mem).resolve_right ne_start
    by_contra hne
    obtain ⟨r, hr, rfl⟩ := h.nothingDead.exists_rule n hn hne
    have hr := h.mem_of_ne hr hne
    apply (h.notMem_right hr).1
    rw [← ih r hr rfl]
    exact block_mem r hr rfl

lemma living (hr : r ∈ k.rules) (hleft : r.left ≠ g.start) : k.Living r := by
  refine ⟨hr, fun hdead => hleft (h.eq_start_of_dead hdead), ?_⟩
  intro s hs hdead
  obtain rfl := h.eq_start_of_dead hdead
  exact (h.notMem_right hr).1 hs

lemma needed_of_leadsTo (hlead : LeadsTo g.successors g.start n) : n = g.start ∨ k.Needed n := by
  induction hlead with
  | refl => exact .inl rfl
  | @tail l m _ hm ih =>
    obtain ⟨hmem, r, hr, rfl, hright⟩ := h.consistent.mem_successors.mp hm
    have hm : m ∈ k.nonterminals := (h.mem_nonterminals m).mpr (.inl hmem)
    by_cases hleft : r.left = g.start
    · have hliving := h.living (h.copy_mem hr hleft) h.start_ne.symm
      exact .inr (.single ⟨hm, _, hliving, h.start_eq.symm, hright⟩)
    · have hliving := h.living (h.mem_of_ne hr hleft) hleft
      exact .inr ((ih.resolve_left hleft).tail ⟨hm, r, hliving, rfl, hright⟩)

lemma needed_iff : k.Needed n ↔ n = z ∨ (n ∈ g.nonterminals ∧ n ≠ g.start) := by
  constructor
  · intro hn
    rcases hn.cases_tail with rfl | ⟨l, -, hmem, r, hr, -, hright⟩
    · exact .inl h.start_eq
    · obtain ⟨hstart, hz⟩ := h.notMem_right hr.1
      rcases (h.mem_nonterminals n).mp hmem with hmem | rfl
      · exact .inr ⟨hmem, fun heq => hstart (heq ▸ hright)⟩
      · exact absurd hright hz
  · rintro (rfl | ⟨hmem, hne⟩)
    · rw [← h.start_eq]
      exact .refl
    · have hlead := h.nothingDead.leadsTo h.consistent hmem
      exact (h.needed_of_leadsTo hlead).resolve_left hne

lemma swap_of_mem (hs : s ∈ g.symbols) (hne : s ≠ g.start) : Equiv.swap g.start z s = s := by
  apply Equiv.swap_apply_of_ne_of_ne hne
  rintro rfl
  exact h.fresh hs

lemma map_swap_right (hr : r ∈ g.rules) : r.right.map (Equiv.swap g.start z) = r.right := by
  apply map_eq_self
  intro s hs
  exact h.swap_of_mem (h.consistent.right_mem r hr s hs) fun heq => h.startUnused r hr (heq ▸ hs)

lemma rename_swap_of_ne (hr : r ∈ g.rules) (hleft : r.left ≠ g.start) : r.rename (Equiv.swap g.start z) = r := by
  apply Rule.ext
  · exact h.swap_of_mem (List.mem_append_right _ (h.consistent.left_mem r hr)) hleft
  · exact h.map_swap_right hr

lemma rename_swap_of_eq (hr : r ∈ g.rules) (hleft : r.left = g.start) :
    r.rename (Equiv.swap g.start z) = ⟨z, r.right⟩ := by
  apply Rule.ext
  · rw [Rule.rename_left, hleft, Equiv.swap_apply_left]
  · exact h.map_swap_right hr

variable (hpruned : Pruned k k')

include hpruned

lemma rename_swap_mem (hr : r ∈ g.rules) : r.rename (Equiv.swap g.start z) ∈ k'.rules := by
  rw [hpruned.mem_rules, h.needed_iff]
  by_cases hleft : r.left = g.start
  · rw [h.rename_swap_of_eq hr hleft]
    exact ⟨h.living (h.copy_mem hr hleft) h.start_ne.symm, .inl rfl⟩
  · rw [h.rename_swap_of_ne hr hleft]
    exact ⟨h.living (h.mem_of_ne hr hleft) hleft, .inr ⟨h.consistent.left_mem r hr, hleft⟩⟩

lemma exists_rename_swap (hr : r ∈ k'.rules) : ∃ o ∈ g.rules, o.rename (Equiv.swap g.start z) = r := by
  obtain ⟨hliving, hneeded⟩ := (hpruned.mem_rules r).mp hr
  have hleft : r.left ≠ g.start := by
    rcases h.needed_iff.mp hneeded with heq | ⟨-, hne⟩
    · rw [heq]
      exact h.start_ne.symm
    · exact hne
  rcases (h.mem_rules r).mp hliving.1 with ⟨hr, -⟩ | ⟨o, ho, hstart, rfl⟩
  · exact ⟨r, hr, h.rename_swap_of_ne hr hleft⟩
  · exact ⟨o, ho, h.rename_swap_of_eq ho hstart⟩

lemma mem_terminals_of_pruned {t : Symbol} : t ∈ k'.terminals ↔ t ∈ g.terminals := by
  rw [hpruned.mem_terminals, h.terminals_eq]
  apply and_iff_left_of_imp
  intro ht
  obtain ⟨r, hr, hright⟩ := h.nothingDead.exists_use h.consistent ht
  refine ⟨_, h.rename_swap_mem hpruned hr, ?_⟩
  rwa [Rule.rename_right, h.map_swap_right hr]

lemma renames_swap (hk' : k'.Consistent) : Renames (Equiv.swap g.start z) g k' := by
  have hterminal : ∀ t ∈ g.terminals, Equiv.swap g.start z t = t := by
    intro t ht
    refine h.swap_of_mem (List.mem_append_left _ ht) fun heq => ?_
    exact h.consistent.disjoint (heq ▸ ht) h.consistent.start_mem
  apply Renames.of_maps h.consistent hk'
  · constructor
    · rw [hpruned.start_eq, h.start_eq, Equiv.swap_apply_left]
    · intro t ht
      rw [hterminal t ht]
      exact (h.mem_terminals_of_pruned hpruned).mpr ht
    · intro n hn
      rw [hpruned.mem_nonterminals, h.needed_iff]
      by_cases hne : n = g.start
      · exact .inl (by rw [hne, Equiv.swap_apply_left])
      · rw [h.swap_of_mem (List.mem_append_right _ hn) hne]
        exact .inr ⟨hn, hne⟩
    · intro r hr
      exact h.rename_swap_mem hpruned hr
  · constructor
    · rw [hpruned.start_eq, h.start_eq, Equiv.symm_swap, Equiv.swap_apply_right]
    · intro t ht
      rw [h.mem_terminals_of_pruned hpruned] at ht
      rwa [Equiv.symm_swap, hterminal t ht]
    · intro n hn
      rw [hpruned.mem_nonterminals, h.needed_iff] at hn
      rw [Equiv.symm_swap]
      rcases hn with rfl | ⟨hn, hne⟩
      · rw [Equiv.swap_apply_right]
        exact h.consistent.start_mem
      · rwa [h.swap_of_mem (List.mem_append_right _ hn) hne]
    · intro r hr
      obtain ⟨o, ho, rfl⟩ := h.exists_rename_swap hpruned hr
      rwa [Rule.rename_symm_rename]

end StartReplaced

end Grammar

open Grammar (Renames StartCopied Pruned)

variable {g g' : Grammar}

/-- A conversion of a normal form copies its start symbol and prunes the result. -/
lemma Converts.exists_startCopied (h : Converts Stage.all g g') (hg : g.NormalForm) :
    ∃ k, k.Consistent ∧ g'.Consistent ∧ StartCopied g.freshName g k ∧ Pruned k g' := by
  obtain ⟨g₁, ⟨-, hsame₁⟩, h₁⟩ := h.exists_first
  rw [hsame₁ hg.terminalsAlone] at h₁
  obtain ⟨g₂, ⟨-, hsame₂⟩, h₂⟩ := h₁.exists_first
  rw [hsame₂ hg.rulesShort] at h₂
  obtain ⟨g₃, hstart, h₃⟩ := h₂.exists_first
  obtain ⟨g₄, herased, h₄⟩ := h₃.exists_first
  obtain ⟨g₅, hcollapsed, h₅⟩ := h₄.exists_first
  obtain ⟨g₆, hpruned, h₆⟩ := h₅.exists_first
  cases h₆ with
  | nil hg' =>
    have hsteps : Grammar.StartErased g.freshName g g₃ g₄ := ⟨hg, hstart, herased, h₄.consistent⟩
    exact ⟨g₅, h₅.consistent, hg', hsteps.startCopied hcollapsed, hpruned⟩

variable {ω : Type} {observer : Observer ω}

/-- A grammar in normal form only gains a copy of its start symbol under a fresh name and is pruned. So a second
conversion gives the start symbol another name, and changes nothing else but the order of lists. -/
theorem normal_forms_gain_a_start_symbol (hg : g.Consistent) (hidle : observer.Idle)
    (hpatient : observer.Patient) (records : ω) :
    (g.checkNormal = .ok () → ∃ k k' g' : Grammar,
      Grammar.ofParts g.freshName g.terminals g.nonterminals (g.copiedRules g.freshName) g.namer = .ok k ∧
      Grammar.prune k = .ok () k' ∧
      (∃ records', Grammar.normalize observer (g, records) = .ok () (g', records')) ∧
      Renames (.refl Symbol) k' g') ∧
    ∃ g₁ g₂ records₁ records₂, Grammar.normalize observer (g, records) = .ok () (g₁, records₁) ∧
      Grammar.normalize observer (g₁, records₁) = .ok () (g₂, records₂) ∧
      Renames (Equiv.swap g₁.start g₁.freshName) g₁ g₂ := by
  constructor
  · intro hnormal
    obtain ⟨hne, hfresh⟩ := Grammar.Consistent.freshName_spec g hg
    obtain ⟨k, hk, hcopied⟩ := hg.exists_startCopied hfresh hne
    have hkc : k.Consistent := .ofParts hk
    obtain ⟨_, k', hprune, hk', hpruned⟩ := hkc.succeeds_prune_exactly
    obtain ⟨_, ⟨g', records'⟩, hrun, hconverts⟩ := succeeds_converts hidle hpatient Stage.all hg records
    obtain ⟨l, hlc, hg', hcopied', hpruned'⟩ := hconverts.exists_startCopied (hg.normalForm hnormal)
    have hren := hcopied.renames hcopied' hkc hlc
    exact ⟨k, k', g', hk, hprune, ⟨records', hrun⟩, hren.pruned hk' hg' hpruned hpruned'⟩
  · obtain ⟨_, ⟨g₁, records₁⟩, hrun₁, hg₁, hconditions⟩ := hg.succeeds_normalize hidle hpatient records
    have hstart : g₁.StartUnused := hconditions .freshStart
    have hnormal : g₁.NormalForm := ⟨hconditions .isolation, hconditions .splitting, hconditions .erasure,
      hconditions .unitCollapse, fun _ => hstart⟩
    obtain ⟨_, ⟨g₂, records₂⟩, hrun₂, hconverts⟩ := succeeds_converts hidle hpatient Stage.all hg₁ records₁
    obtain ⟨k, -, hg₂, hcopied, hpruned⟩ := hconverts.exists_startCopied hnormal
    have hreplaced : Grammar.StartReplaced g₁.freshName g₁ k := ⟨hcopied, hg₁, hstart, hconditions .pruning⟩
    exact ⟨g₁, g₂, records₁, records₂, hrun₁, hrun₂, hreplaced.renames_swap hpruned hg₂⟩

/-- The rules `S -> A A`, `S -> epsilon` and `A -> a`. -/
def evenPair : List Rule :=
  [⟨"S", ["A", "A"]⟩, ⟨"S", []⟩, ⟨"A", ["a"]⟩]

theorem normal_form_of_evenPair :
    ∃ g k k' g' g₂ : Grammar, Grammar.ofParts "S" ["a"] ["A"] evenPair .standard = .ok g ∧
      g.checkNormal = .ok () ∧
      Grammar.ofParts g.freshName ["a"] ["S", "A"] (g.copiedRules g.freshName) .standard = .ok k ∧
      Grammar.prune k = .ok () k' ∧ Grammar.normalize Observer.idle (g, ()) = .ok () (g', ()) ∧
      Renames (.refl Symbol) k' g' ∧ Grammar.normalize Observer.idle (g', ()) = .ok () (g₂, ()) ∧
      Renames (Equiv.swap g'.start g'.freshName) g' g₂ := by
  obtain ⟨g, hg, hcontents⟩ := Grammar.ofParts_eq_ok "S" ["a"] ["A"] evenPair .standard
    (by decide) (by decide) (by decide) (by decide) (by decide)
  obtain ⟨hstart, hterminals, hnonterminals, hrules, hnamer⟩ := Grammar.Contents.mk.inj hcontents
  have hconsistent : g.Consistent := .ofParts hg
  have hnormal : g.checkNormal = .ok () := by
    apply hconsistent.checkNormal_eq_ok
    · rw [Grammar.TerminalsAlone, hrules, hterminals]
      decide
    · rw [Grammar.RulesShort, hrules]
      decide
    · rw [Grammar.StartUnused, hrules, hstart]
      decide
    · rw [Grammar.EpsilonAtStart, hrules, hstart]
      decide
    · rw [Grammar.UnitFree, hrules, hnonterminals]
      simp [evenPair]
  obtain ⟨honce, g₁, g₂, _, _, hrun₁, hrun₂, hren₂⟩ :=
    normal_forms_gain_a_start_symbol hconsistent (fun _ _ _ => rfl) (fun _ s => ⟨s, rfl⟩) ()
  obtain ⟨k, k', g', hk, hprune, ⟨_, hrun⟩, hren⟩ := honce hnormal
  obtain rfl : g₁ = g' := by
    rw [hrun] at hrun₁
    cases hrun₁
    rfl
  rw [hterminals, hnonterminals, hnamer] at hk
  exact ⟨g, k, k', g₁, g₂, hg, hnormal, hk, hprune, hrun, hren, hrun₂, hren₂⟩

end ContextFree

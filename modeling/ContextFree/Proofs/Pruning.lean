import ContextFree.Proofs.DeadEnds
import ContextFree.Proofs.StageConditions
import ContextFree.Proofs.Walks

/-!
# Pruned grammars

Pruning takes parts of a grammar away: the dead nonterminals, those that cannot be reached, and the terminals
that are not used. The nonterminals that stay generate what they did before, and every symbol that stays is of
use.
-/

namespace ContextFree.Grammar

open BreadthFirst (LeadsTo)

variable {g g' g'' : Grammar} {r : Rule} {m n s t : Symbol}

/-- The second grammar is a part of the first, and generates the same from each of its own nonterminals. -/
structure Prunes (g g' : Grammar) : Prop where
  start_eq : g'.start = g.start
  terminals_sublist : g'.terminals.Sublist g.terminals
  nonterminals_sublist : g'.nonterminals.Sublist g.nonterminals
  rules_sublist : g'.rules.Sublist g.rules
  generatesFrom_iff : ∀ s ∈ g'.nonterminals, ∀ w, g'.GeneratesFrom s w ↔ g.GeneratesFrom s w

namespace Prunes

lemma trans (h : Prunes g g') (h' : Prunes g' g'') : Prunes g g'' where
  start_eq := h'.start_eq.trans h.start_eq
  terminals_sublist := h'.terminals_sublist.trans h.terminals_sublist
  nonterminals_sublist := h'.nonterminals_sublist.trans h.nonterminals_sublist
  rules_sublist := h'.rules_sublist.trans h.rules_sublist
  generatesFrom_iff s hs w :=
    (h'.generatesFrom_iff s hs w).trans (h.generatesFrom_iff s (h'.nonterminals_sublist.subset hs) w)

lemma generates_iff (h : Prunes g g') (hg' : g'.Consistent) (w : List Symbol) :
    g'.Generates w ↔ g.Generates w := by
  unfold Generates
  rw [h.generatesFrom_iff g'.start hg'.start_mem, h.start_eq]

lemma terminalsAlone (h : Prunes g g') (halone : g.TerminalsAlone) : g'.TerminalsAlone :=
  fun r hr hlength s hs hterm =>
    halone r (h.rules_sublist.subset hr) hlength s hs (h.terminals_sublist.subset hterm)

lemma rulesShort (h : Prunes g g') (hshort : g.RulesShort) : g'.RulesShort :=
  fun r hr => hshort r (h.rules_sublist.subset hr)

lemma startUnused (h : Prunes g g') (hstart : g.StartUnused) : g'.StartUnused :=
  fun r hr => h.start_eq ▸ hstart r (h.rules_sublist.subset hr)

lemma epsilonAtStart (h : Prunes g g') (hepsilon : g.EpsilonAtStart) : g'.EpsilonAtStart :=
  fun r hr => h.start_eq ▸ hepsilon r (h.rules_sublist.subset hr)

lemma unitFree (h : Prunes g g') (hunit : g.UnitFree) : g'.UnitFree :=
  fun r hr s hright hs => hunit r (h.rules_sublist.subset hr) s hright (h.nonterminals_sublist.subset hs)

end Prunes

lemma DeadGone.prunes {gone : List Symbol} (h : DeadGone gone g g') (hg : g.Consistent) : Prunes g g' where
  start_eq := h.start_eq
  terminals_sublist := h.terminals_eq ▸ List.Sublist.refl _
  nonterminals_sublist := h.nonterminals_eq ▸ List.filter_sublist
  rules_sublist := h.rules_eq ▸ List.filter_sublist
  generatesFrom_iff s _ w := h.generatesFrom_iff hg s w

/-! ### Nonterminals that cannot be reached -/

lemma Consistent.mem_successors (hg : g.Consistent) :
    m ∈ g.successors n ↔ m ∈ g.nonterminals ∧ ∃ r ∈ g.rules, r.left = n ∧ m ∈ r.right := by
  unfold successors rulesWithLeft
  simp only [List.mem_flatMap, List.mem_filter, decide_eq_true_eq, hg.isNonterminal_iff]
  constructor
  · rintro ⟨r, ⟨hr, hleft⟩, hm, hnon⟩
    exact ⟨hnon, r, hr, hleft, hm⟩
  · rintro ⟨hnon, r, hr, hleft, hm⟩
    exact ⟨r, ⟨hr, hleft⟩, hm, hnon⟩

lemma Consistent.mem_reachable (hg : g.Consistent) : n ∈ g.reachable ↔ LeadsTo g.successors g.start n :=
  BreadthFirst.mem_walk_iff hg.start_mem fun _ _ _ hy => (hg.mem_successors.mp hy).1

lemma Consistent.mem_unreachable (hg : g.Consistent) :
    n ∈ g.unreachable ↔ n ∈ g.nonterminals ∧ ¬LeadsTo g.successors g.start n := by
  rw [← hg.mem_reachable]
  simp [unreachable]

lemma Consistent.unreachable_eq_nil (hg : g.Consistent)
    (h : ∀ n ∈ g.nonterminals, LeadsTo g.successors g.start n) : g.unreachable = [] := by
  rw [List.eq_nil_iff_forall_not_mem]
  intro n hn
  obtain ⟨hmem, hnot⟩ := hg.mem_unreachable.mp hn
  exact hnot (h n hmem)

lemma Consistent.right_notMem_unreachable (hg : g.Consistent) (hr : r ∈ g.rules)
    (hleft : r.left ∉ g.unreachable) (hs : s ∈ r.right) : s ∉ g.unreachable := by
  intro hlost
  obtain ⟨hmem, hnot⟩ := hg.mem_unreachable.mp hlost
  have hlead : LeadsTo g.successors g.start r.left := by
    by_contra hleft'
    exact hleft (hg.mem_unreachable.mpr ⟨hg.left_mem r hr, hleft'⟩)
  exact hnot (hlead.tail (hg.mem_successors.mpr ⟨hmem, r, hr, rfl, hs⟩))

/-- The nonterminals that cannot be reached are gone, with their rules. -/
def UnreachableGone (g g' : Grammar) : Prop :=
  g'.contents = (g.contents.withNonterminals (g.nonterminals.filter (!g.unreachable.contains ·))).withRules
    (g.rules.filter (!g.unreachable.contains ·.left))

lemma Consistent.succeeds_eraseRulesFor {ns : List Symbol} (hg : g.Consistent) (hns : ns.Nodup)
    (hmem : ∀ n ∈ ns, n ∈ g.nonterminals) :
    Succeeds (ns.forM fun n => do eraseRules (← Edit.query (rulesFor · n))) g fun _ g' => g'.Consistent ∧
      g'.contents = g.contents.withRules (g.rules.filter (!ns.contains ·.left)) := by
  refine succeeds_batch (fun done => g.contents.withRules (g.rules.filter (!done.contains ·.left))) hg hns
    (by simp [contents, Contents.withRules]) ?_
  intro done n g' _ hn _ hg' hc
  have hrules : g'.rules = g.rules.filter (!done.contains ·.left) := congrArg Contents.rules hc
  have hnon : g'.nonterminals = g.nonterminals := congrArg Contents.nonterminals hc
  have hquery : g'.rulesFor n = .ok (g'.rules.filter (·.left = n)) :=
    if_pos ((hg'.isNonterminal_iff n).mpr (hnon ▸ hmem n hn))
  refine Succeeds.bind_ok (query_eq_ok hquery) ?_
  refine (hg'.succeeds_eraseRules (hg'.rules_nodup.filter _) fun r hr => List.mem_of_mem_filter hr).mono ?_
  rintro _ g'' ⟨hg'', hc'⟩
  have hkept : g'.rules.filter (!(g'.rules.filter (·.left = n)).contains ·) =
      g.rules.filter (!(done ++ [n]).contains ·.left) := by
    rw [hrules, List.filter_filter]
    apply List.filter_congr
    intro r hr
    rw [Bool.eq_iff_iff]
    simp only [hr, true_and, List.mem_filter, List.contains_iff_mem, List.mem_append, List.mem_singleton,
      Bool.and_eq_true, Bool.not_eq_true', ← Bool.not_eq_true, decide_eq_true_eq]
    tauto
  refine ⟨hg'', ?_⟩
  rw [hc', hc, hkept]
  rfl

lemma Consistent.succeeds_removeUnreachable (hg : g.Consistent) :
    Succeeds removeUnreachable g fun _ g' => g'.Consistent ∧ UnreachableGone g g' := by
  apply Succeeds.get_bind
  have hnodup : g.unreachable.Nodup := hg.nonterminals_nodup.filter _
  refine Succeeds.bind (hg.succeeds_eraseRulesFor hnodup fun n hn => (hg.mem_unreachable.mp hn).1) ?_
  rintro _ g₁ ⟨hg₁, hc₁⟩
  have hrules₁ : g₁.rules = g.rules.filter (!g.unreachable.contains ·.left) := congrArg Contents.rules hc₁
  have hnon₁ : g₁.nonterminals = g.nonterminals := congrArg Contents.nonterminals hc₁
  have hstart₁ : g₁.start = g.start := congrArg Contents.start hc₁
  refine (hg₁.succeeds_eraseNonterminals hnodup ?_ ?_ ?_).mono ?_
  · intro n hn
    rw [hnon₁]
    exact (hg.mem_unreachable.mp hn).1
  · intro n hn r hr
    rw [hrules₁, List.mem_filter] at hr
    obtain ⟨hr, hleft⟩ := hr
    have hleft : r.left ∉ g.unreachable := by simpa using hleft
    exact ⟨fun h => hleft (h ▸ hn), fun hs => hg.right_notMem_unreachable hr hleft hs hn⟩
  · rw [hstart₁]
    exact fun h => (hg.mem_unreachable.mp h).2 .refl
  · rintro _ g₂ ⟨hg₂, hc₂⟩
    refine ⟨hg₂, ?_⟩
    unfold UnreachableGone
    rw [hc₂, hc₁, hnon₁]
    rfl

namespace UnreachableGone

lemma start_eq (h : UnreachableGone g g') : g'.start = g.start :=
  congrArg Contents.start h

lemma terminals_eq (h : UnreachableGone g g') : g'.terminals = g.terminals :=
  congrArg Contents.terminals h

lemma nonterminals_eq (h : UnreachableGone g g') :
    g'.nonterminals = g.nonterminals.filter (!g.unreachable.contains ·) :=
  congrArg Contents.nonterminals h

lemma rules_eq (h : UnreachableGone g g') : g'.rules = g.rules.filter (!g.unreachable.contains ·.left) :=
  congrArg Contents.rules h

lemma mem_nonterminals (h : UnreachableGone g g') (hg : g.Consistent) :
    n ∈ g'.nonterminals ↔ n ∈ g.nonterminals ∧ LeadsTo g.successors g.start n := by
  rw [h.nonterminals_eq, ← hg.mem_reachable]
  simp only [List.mem_filter, Bool.not_eq_true', ← Bool.not_eq_true, List.contains_iff_mem,
    hg.mem_unreachable, ← hg.mem_reachable]
  tauto

lemma mem_rules (h : UnreachableGone g g') : r ∈ g'.rules ↔ r ∈ g.rules ∧ r.left ∉ g.unreachable := by
  rw [h.rules_eq]
  simp

lemma yields (h : UnreachableGone g g') (hg : g.Consistent) {u w : List Symbol} (hy : Yields g.rules u w)
    (hu : ∀ s ∈ u, s ∉ g.unreachable) : Yields g'.rules u w := by
  induction hy with
  | nil => exact .nil
  | keep s _ ih => exact .keep s (ih (List.forall_mem_cons.mp hu).2)
  | expand mem _ _ ih₁ ih₂ =>
    obtain ⟨hleft, hu⟩ := List.forall_mem_cons.mp hu
    refine .expand (h.mem_rules.mpr ⟨mem, hleft⟩) (ih₁ fun s hs => ?_) (ih₂ hu)
    exact hg.right_notMem_unreachable mem hleft hs

lemma prunes (h : UnreachableGone g g') (hg : g.Consistent) : Prunes g g' where
  start_eq := h.start_eq
  terminals_sublist := h.terminals_eq ▸ List.Sublist.refl _
  nonterminals_sublist := h.nonterminals_eq ▸ List.filter_sublist
  rules_sublist := h.rules_eq ▸ List.filter_sublist
  generatesFrom_iff s hs w := by
    have hs : s ∉ g.unreachable := fun hlost =>
      (hg.mem_unreachable.mp hlost).2 ((h.mem_nonterminals hg).mp hs).2
    unfold GeneratesFrom
    rw [h.terminals_eq]
    apply and_congr_right
    intro _
    constructor
    · exact fun hd => hd.mono fun r hr => (h.mem_rules.mp hr).1
    · exact fun hd => derives_iff_yields.mpr (h.yields hg (derives_iff_yields.mp hd) (by simpa using hs))

lemma leadsTo (h : UnreachableGone g g') (hg : g.Consistent) (hg' : g'.Consistent)
    (hlead : LeadsTo g.successors g.start n) : LeadsTo g'.successors g'.start n := by
  rw [h.start_eq]
  induction hlead with
  | refl => exact .refl
  | @tail k m hk hstep ih =>
    obtain ⟨hm, r, hr, rfl, hmem⟩ := hg.mem_successors.mp hstep
    refine ih.tail (hg'.mem_successors.mpr ⟨?_, r, h.mem_rules.mpr ⟨hr, ?_⟩, rfl, hmem⟩)
    · exact (h.mem_nonterminals hg).mpr ⟨hm, hk.tail hstep⟩
    · exact fun hlost => (hg.mem_unreachable.mp hlost).2 hk

end UnreachableGone

/-! ### Terminals that are not used -/

/-- The terminals that no rule uses are gone. -/
def UnusedGone (g g' : Grammar) : Prop :=
  g'.contents = g.contents.withTerminals (g.terminals.filter (!g.unusedTerminals.contains ·))

lemma Consistent.mem_unusedTerminals (hg : g.Consistent) :
    t ∈ g.unusedTerminals ↔ t ∈ g.terminals ∧ ∀ r ∈ g.rules, t ∉ r.right := by
  unfold unusedTerminals
  rw [List.mem_filter, Bool.not_eq_true', hg.not_isMentioned_iff]
  apply and_congr_right
  intro ht
  refine forall₂_congr fun r hr => and_iff_right ?_
  exact fun h => hg.disjoint ht (h ▸ hg.left_mem r hr)

lemma Consistent.succeeds_eraseUnused (hg : g.Consistent) :
    Succeeds (eraseTerminals g.unusedTerminals) g fun _ g' => g'.Consistent ∧ UnusedGone g g' := by
  refine hg.succeeds_eraseTerminals ?_ ?_ ?_
  · exact hg.terminals_nodup.filter _
  · exact fun t ht => (hg.mem_unusedTerminals.mp ht).1
  · exact fun t ht => (hg.mem_unusedTerminals.mp ht).2

namespace UnusedGone

lemma start_eq (h : UnusedGone g g') : g'.start = g.start :=
  congrArg Contents.start h

lemma nonterminals_eq (h : UnusedGone g g') : g'.nonterminals = g.nonterminals :=
  congrArg Contents.nonterminals h

lemma rules_eq (h : UnusedGone g g') : g'.rules = g.rules :=
  congrArg Contents.rules h

lemma terminals_eq (h : UnusedGone g g') : g'.terminals = g.terminals.filter (!g.unusedTerminals.contains ·) :=
  congrArg Contents.terminals h

lemma mem_terminals (h : UnusedGone g g') (hg : g.Consistent) :
    t ∈ g'.terminals ↔ t ∈ g.terminals ∧ ∃ r ∈ g.rules, t ∈ r.right := by
  rw [h.terminals_eq]
  simp only [List.mem_filter, Bool.not_eq_true', ← Bool.not_eq_true, List.contains_iff_mem,
    hg.mem_unusedTerminals, not_and, not_forall, not_not, exists_prop]
  exact ⟨fun ht => ⟨ht.1, ht.2 ht.1⟩, fun ht => ⟨ht.1, fun _ => ht.2⟩⟩

lemma prunes (h : UnusedGone g g') (hg : g.Consistent) : Prunes g g' where
  start_eq := h.start_eq
  terminals_sublist := h.terminals_eq ▸ List.filter_sublist
  nonterminals_sublist := h.nonterminals_eq ▸ List.Sublist.refl _
  rules_sublist := h.rules_eq ▸ List.Sublist.refl _
  generatesFrom_iff s hs w := by
    rw [h.nonterminals_eq] at hs
    unfold GeneratesFrom
    rw [h.rules_eq, and_congr_left_iff]
    intro hd
    refine forall₂_congr fun t ht => ?_
    rw [h.mem_terminals hg, and_iff_left_iff_imp]
    intro hterm
    refine ((derives_iff_yields.mp hd).mem_or_mem_right ht).resolve_left ?_
    rw [List.mem_singleton]
    rintro rfl
    exact hg.disjoint hterm hs

lemma mem_successors (h : UnusedGone g g') (hg : g.Consistent) (hg' : g'.Consistent) :
    m ∈ g'.successors n ↔ m ∈ g.successors n := by
  rw [hg.mem_successors, hg'.mem_successors, h.nonterminals_eq, h.rules_eq]

lemma unusedTerminals_eq_nil (h : UnusedGone g g') (hg : g.Consistent) (hg' : g'.Consistent) :
    g'.unusedTerminals = [] := by
  rw [List.eq_nil_iff_forall_not_mem]
  intro t ht
  obtain ⟨hmem, hunused⟩ := hg'.mem_unusedTerminals.mp ht
  obtain ⟨-, r, hr, htr⟩ := (h.mem_terminals hg).mp hmem
  exact hunused r (h.rules_eq ▸ hr) htr

end UnusedGone

/-! ### All of it -/

/-- Nothing is left to prune. -/
structure NothingDead (g : Grammar) : Prop where
  exists_rule : ∀ n ∈ g.nonterminals, n ≠ g.start → ∃ r ∈ g.rules, r.left = n
  unreachable_eq_nil : g.unreachable = []
  unusedTerminals_eq_nil : g.unusedTerminals = []

lemma NothingDead.leadsTo (h : g.NothingDead) (hg : g.Consistent) (hn : n ∈ g.nonterminals) :
    LeadsTo g.successors g.start n := by
  by_contra hnot
  have hlost := hg.mem_unreachable.mpr ⟨hn, hnot⟩
  rw [h.unreachable_eq_nil] at hlost
  cases hlost

lemma NothingDead.exists_use (h : g.NothingDead) (hg : g.Consistent) (ht : t ∈ g.terminals) :
    ∃ r ∈ g.rules, t ∈ r.right := by
  by_contra hnone
  push Not at hnone
  have hunused := hg.mem_unusedTerminals.mpr ⟨ht, hnone⟩
  rw [h.unusedTerminals_eq_nil] at hunused
  cases hunused

/-- A rule that mentions no dead symbol. -/
def Living (g : Grammar) (r : Rule) : Prop :=
  r ∈ g.rules ∧ ¬g.Dead r.left ∧ ∀ s ∈ r.right, ¬g.Dead s

/-- The symbol is the start symbol, or living rules lead to it from there. -/
def Needed (g : Grammar) : Symbol → Prop :=
  Relation.ReflTransGen (fun n m => m ∈ g.nonterminals ∧ ∃ r, g.Living r ∧ r.left = n ∧ m ∈ r.right) g.start

/-- What pruning leaves, in terms of what there was. -/
structure Pruned (g g' : Grammar) : Prop where
  start_eq : g'.start = g.start
  mem_nonterminals : ∀ n, n ∈ g'.nonterminals ↔ g.Needed n
  mem_rules : ∀ r, r ∈ g'.rules ↔ g.Living r ∧ g.Needed r.left
  mem_terminals : ∀ t, t ∈ g'.terminals ↔ t ∈ g.terminals ∧ ∃ r ∈ g'.rules, t ∈ r.right

/-- Pruning by its steps, with the grammars on the way. -/
structure PruneSteps (gone : List Symbol) (g g₁ g₂ g' : Grammar) : Prop where
  consistent : g.Consistent
  consistent₁ : g₁.Consistent
  consistent₂ : g₂.Consistent
  consistent' : g'.Consistent
  deadGone : DeadGone gone g g₁
  mem_gone : ∀ s, s ∈ gone ↔ g.Dead s
  exists_rule : ∀ n ∈ g₁.nonterminals, n ≠ g₁.start → ∃ r ∈ g₁.rules, r.left = n
  unreachableGone : UnreachableGone g₁ g₂
  unusedGone : UnusedGone g₂ g'

lemma Consistent.succeeds_pruneSteps (hg : g.Consistent) :
    Succeeds prune g fun _ g' => ∃ gone g₁ g₂, PruneSteps gone g g₁ g₂ g' := by
  have hfirst : Succeeds (discard removeDeadEnds) g fun _ g₁ => ∃ gone, g₁.Consistent ∧ DeadGone gone g g₁ ∧
      (∀ s, s ∈ gone ↔ g.Dead s) ∧ g₁.deadEnds? = none := by
    apply Succeeds.discard
    apply hg.succeeds_removeDeadEnds.mono
    rintro past g₁ ⟨hg₁, hgone₁, hdead, -, hnone⟩
    exact ⟨past.flatten, hg₁, hgone₁, hdead, hnone⟩
  refine Succeeds.internal (Succeeds.bind hfirst ?_)
  rintro _ g₁ ⟨gone, hg₁, hgone₁, hdead, hnone⟩
  apply Succeeds.bind hg₁.succeeds_removeUnreachable
  rintro _ g₂ ⟨hg₂, hgone₂⟩
  apply Succeeds.get_bind
  apply hg₂.succeeds_eraseUnused.mono
  rintro _ g₃ ⟨hg₃, hgone₃⟩
  exact ⟨gone, g₁, g₂, hg, hg₁, hg₂, hg₃, hgone₁, hdead, fun n => exists_rule_of_deadEnds? hnone, hgone₂, hgone₃⟩

namespace PruneSteps

variable {gone : List Symbol} {g₁ g₂ : Grammar}

lemma prunes (h : PruneSteps gone g g₁ g₂ g') : Prunes g g' :=
  ((h.deadGone.prunes h.consistent).trans (h.unreachableGone.prunes h.consistent₁)).trans
    (h.unusedGone.prunes h.consistent₂)

lemma nothingDead (h : PruneSteps gone g g₁ g₂ g') : g'.NothingDead where
  exists_rule := by
    intro n hn hne
    rw [h.unusedGone.nonterminals_eq] at hn
    rw [h.unusedGone.start_eq, h.unreachableGone.start_eq] at hne
    obtain ⟨hn, hlead⟩ := (h.unreachableGone.mem_nonterminals h.consistent₁).mp hn
    obtain ⟨r, hr, rfl⟩ := h.exists_rule n hn hne
    rw [h.unusedGone.rules_eq]
    refine ⟨r, h.unreachableGone.mem_rules.mpr ⟨hr, fun hlost => ?_⟩, rfl⟩
    exact (h.consistent₁.mem_unreachable.mp hlost).2 hlead
  unreachable_eq_nil := by
    apply h.consistent'.unreachable_eq_nil
    intro n hn
    rw [h.unusedGone.nonterminals_eq] at hn
    have hlead := h.unreachableGone.leadsTo h.consistent₁ h.consistent₂
      ((h.unreachableGone.mem_nonterminals h.consistent₁).mp hn).2
    rw [h.unusedGone.start_eq]
    exact Relation.ReflTransGen.mono
      (fun _ _ hstep => (h.unusedGone.mem_successors h.consistent₂ h.consistent').mpr hstep) _ _ hlead
  unusedTerminals_eq_nil := h.unusedGone.unusedTerminals_eq_nil h.consistent₂ h.consistent'

lemma mem_rules_iff_living (h : PruneSteps gone g g₁ g₂ g') : r ∈ g₁.rules ↔ g.Living r := by
  rw [h.deadGone.mem_rules, Living]
  simp only [h.mem_gone]

lemma leadsTo_iff_needed (h : PruneSteps gone g g₁ g₂ g') : LeadsTo g₁.successors g₁.start n ↔ g.Needed n := by
  have hstep : (fun n m => m ∈ g₁.successors n) =
      fun n m => m ∈ g.nonterminals ∧ ∃ r, g.Living r ∧ r.left = n ∧ m ∈ r.right := by
    funext n m
    rw [h.consistent₁.mem_successors, h.deadGone.mem_nonterminals, h.mem_gone]
    simp only [h.mem_rules_iff_living]
    ext
    constructor
    · rintro ⟨⟨hm, -⟩, hr⟩
      exact ⟨hm, hr⟩
    · rintro ⟨hm, r, hr, hleft, hmem⟩
      exact ⟨⟨hm, hr.2.2 m hmem⟩, r, hr, hleft, hmem⟩
  rw [LeadsTo, hstep, h.deadGone.start_eq, Needed]

lemma mem_nonterminals_of_needed (h : PruneSteps gone g g₁ g₂ g') (hn : g.Needed n) : n ∈ g₁.nonterminals := by
  rcases hn.cases_tail with rfl | ⟨k, -, hm, r, hr, -, hmem⟩
  · exact h.deadGone.start_eq ▸ h.consistent₁.start_mem
  · exact h.deadGone.mem_nonterminals.mpr ⟨hm, fun hgone => hr.2.2 n hmem ((h.mem_gone n).mp hgone)⟩

lemma pruned (h : PruneSteps gone g g₁ g₂ g') : Pruned g g' where
  start_eq := h.prunes.start_eq
  mem_nonterminals n := by
    rw [h.unusedGone.nonterminals_eq, h.unreachableGone.mem_nonterminals h.consistent₁, h.leadsTo_iff_needed]
    exact and_iff_right_of_imp h.mem_nonterminals_of_needed
  mem_rules r := by
    rw [h.unusedGone.rules_eq, h.unreachableGone.mem_rules, h.consistent₁.mem_unreachable, h.leadsTo_iff_needed,
      h.mem_rules_iff_living]
    constructor
    · rintro ⟨hr, hleft⟩
      refine ⟨hr, by_contra fun hnot => hleft ⟨?_, hnot⟩⟩
      exact h.consistent₁.left_mem r (h.mem_rules_iff_living.mpr hr)
    · rintro ⟨hr, hneeded⟩
      exact ⟨hr, fun hlost => hlost.2 hneeded⟩
  mem_terminals t := by
    rw [h.unusedGone.mem_terminals h.consistent₂, h.unusedGone.rules_eq, h.unreachableGone.terminals_eq,
      h.deadGone.terminals_eq]

end PruneSteps

theorem Consistent.succeeds_prune (hg : g.Consistent) :
    Succeeds prune g fun _ g' => g'.Consistent ∧ Prunes g g' ∧ g'.NothingDead := by
  apply hg.succeeds_pruneSteps.mono
  rintro _ g' ⟨gone, g₁, g₂, h⟩
  exact ⟨h.consistent', h.prunes, h.nothingDead⟩

lemma Consistent.succeeds_prune_exactly (hg : g.Consistent) :
    Succeeds prune g fun _ g' => g'.Consistent ∧ Pruned g g' := by
  apply hg.succeeds_pruneSteps.mono
  rintro _ g' ⟨gone, g₁, g₂, h⟩
  exact ⟨h.consistent', h.pruned⟩

end ContextFree.Grammar

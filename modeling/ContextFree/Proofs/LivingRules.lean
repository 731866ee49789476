import ContextFree.Proofs.StageResults

/-!
# What pruning leaves

Pruning goes through dead ends in rounds, then along the rules from the start symbol, and last through the
terminals, and comes back to none of these. What it leaves can be told beforehand: the dead symbols are the least set
of their kind, the living rules are those without dead symbols, and what living rules lead to stays. Every rule that
takes part in a derivation of terminals from a symbol that stays is among them. A second run finds nothing to do.
-/

namespace ContextFree.Grammar

variable {g g' : Grammar} {r : Rule} {n s : Symbol} {u v w before after : List Symbol}

/-! ### Dead symbols as a least set -/

/-- Nonterminals other than the start symbol, among them every such nonterminal whose rules all have one of them on
the right side. -/
structure ClosedUnderBlocking (g : Grammar) (symbols : Set Symbol) : Prop where
  mem_nonterminals : ∀ s ∈ symbols, s ∈ g.nonterminals
  ne_start : ∀ s ∈ symbols, s ≠ g.start
  blocked_mem : ∀ n ∈ g.nonterminals, n ≠ g.start →
    (∀ r ∈ g.rules, r.left = n → ∃ s ∈ r.right, s ∈ symbols) → n ∈ symbols

lemma isLeast_dead (g : Grammar) : IsLeast {symbols | g.ClosedUnderBlocking symbols} {s | g.Dead s} := by
  constructor
  · constructor
    · intro s hs
      exact hs.mem_nonterminals
    · intro s hs
      exact hs.ne_start
    · intro n hn hne hblocked
      exact .of_forall hn hne hblocked
  · intro symbols hclosed s hs
    induction hs with
    | @intro n mem ne_start block block_mem _ ih =>
      apply hclosed.blocked_mem n mem ne_start
      intro r hr hn
      exact ⟨block r hr hn, block_mem r hr hn, ih r hr hn⟩

/-! ### Rules in derivations of terminals -/

lemma Consistent.living_of_derives (hg : g.Consistent) (hr : r ∈ g.rules) (hw : ∀ t ∈ w, t ∈ g.terminals)
    (hd : Derives g.rules (before ++ r.right ++ after) w) : g.Living r := by
  have hy := derives_iff_yields.mp hd
  have hright := Dead.not_mem_of_yields hg hy hw
  have hleft := Dead.not_mem_of_yields hg (.of_produces (.step hr before after) hy) hw
  refine ⟨hr, hleft r.left (by simp), ?_⟩
  intro s hs
  exact hright s (by simp [hs])

lemma Consistent.needed_of_derives (hg : g.Consistent) (hw : ∀ t ∈ w, t ∈ g.terminals) (hd : Derives g.rules u v)
    (hd' : Derives g.rules v w) (hu : ∀ n ∈ u, n ∈ g.nonterminals → g.Needed n) :
    ∀ n ∈ v, n ∈ g.nonterminals → g.Needed n := by
  obtain ⟨_, hd⟩ := hd
  induction hd with
  | refl => exact hu
  | head first rest ih =>
    apply ih hd'
    obtain ⟨mem, before, after⟩ := first
    have hliving := hg.living_of_derives mem hw (.trans ⟨_, rest⟩ hd')
    have hleft := hu _ (List.mem_append_right _ List.mem_cons_self) (hg.left_mem _ mem)
    intro n hn hmem
    rcases List.mem_append.mp hn with hn | hn
    · rcases List.mem_append.mp hn with hn | hn
      · exact hu n (List.mem_append_left _ hn) hmem
      · exact hleft.tail ⟨hmem, _, hliving, rfl, hn⟩
    · exact hu n (List.mem_append_right _ (List.mem_cons_of_mem _ hn)) hmem

lemma Pruned.mem_rules_of_derives (h : Pruned g g') (hg : g.Consistent) (hs : s ∈ g'.nonterminals)
    (hr : r ∈ g.rules) (hw : ∀ t ∈ w, t ∈ g.terminals) (hd : Derives g.rules [s] (before ++ r.left :: after))
    (hd' : Derives g.rules (before ++ r.right ++ after) w) : r ∈ g'.rules := by
  have hstep : Derives g.rules (before ++ r.left :: after) w :=
    .trans ⟨1, .head (.step hr before after) (.refl _)⟩ hd'
  have hneeded : g.Needed s := (h.mem_nonterminals s).mp hs
  have hleft : g.Needed r.left := by
    apply hg.needed_of_derives hw hd hstep _ r.left (by simp) (hg.left_mem r hr)
    intro n hn _
    rwa [List.mem_singleton.mp hn]
  exact (h.mem_rules r).mpr ⟨hg.living_of_derives hr hw hd', hleft⟩

/-- Pruning keeps the language, and what every nonterminal that stays generates. No rule that goes takes part in a
derivation of terminals from a nonterminal that stays. -/
theorem pruning_keeps_rules_of_derivations (hg : g.Consistent) :
    ∃ g', prune g = .ok () g' ∧ g'.start = g.start ∧ g'.start ∈ g'.nonterminals ∧
      (∀ w, g'.Generates w ↔ g.Generates w) ∧
      (∀ s ∈ g'.nonterminals, ∀ w, g'.GeneratesFrom s w ↔ g.GeneratesFrom s w) ∧
      ∀ s ∈ g'.nonterminals, ∀ r ∈ g.rules, ∀ before after w, (∀ t ∈ w, t ∈ g.terminals) →
        Derives g.rules [s] (before ++ r.left :: after) → Derives g.rules (before ++ r.right ++ after) w →
        r ∈ g'.rules := by
  obtain ⟨_, g', hrun, _, _, _, hsteps⟩ := hg.succeeds_pruneSteps
  have hg' := hsteps.consistent'
  refine ⟨g', hrun, hsteps.pruned.start_eq, hg'.start_mem, hsteps.prunes.generates_iff hg',
    hsteps.prunes.generatesFrom_iff, ?_⟩
  intro s hs r hr before after w hw hd hd'
  exact hsteps.pruned.mem_rules_of_derives hg hs hr hw hd hd'

/-- The symbols `C` and `D` are dead, `U` cannot be reached, and `B` goes in a circle. -/
def deadBranches : List Rule :=
  [⟨"S", ["a", "A"]⟩, ⟨"S", ["A", "C"]⟩, ⟨"A", ["b"]⟩, ⟨"A", ["B"]⟩, ⟨"B", ["B", "b"]⟩, ⟨"C", ["D"]⟩, ⟨"U", ["A"]⟩]

lemma exists_deadBranches :
    ∃ g, ofParts "S" ["a", "b", "c"] ["A", "B", "C", "D", "U"] deadBranches .standard = .ok g ∧
      g.contents = ⟨"S", ["a", "b", "c"], ["S", "A", "B", "C", "D", "U"], deadBranches, .standard⟩ :=
  ofParts_eq_ok _ _ _ _ _ (by decide) (by decide) (by decide) (by decide) (by decide)

theorem pruning_of_deadBranches :
    ∃ g g', ofParts "S" ["a", "b", "c"] ["A", "B", "C", "D", "U"] deadBranches .standard = .ok g ∧
      prune g = .ok () g' ∧ g'.Generates ["a", "b"] ∧ ⟨"A", ["b"]⟩ ∈ g'.rules := by
  obtain ⟨g, hg, hcontents⟩ := exists_deadBranches
  obtain ⟨hstart, hterminals, -, hrules, -⟩ := Contents.mk.inj hcontents
  have hrule : ∀ r ∈ deadBranches, Derives deadBranches [r.left] r.right := fun r hr => .of_mem hr
  have hs := hrule ⟨"S", ["a", "A"]⟩ (by decide)
  have ha := hrule ⟨"A", ["b"]⟩ (by decide)
  obtain ⟨g', hrun, hstart', hmem, hlanguage, -, hkept⟩ := pruning_keeps_rules_of_derivations (.ofParts hg)
  rw [hstart] at hstart'
  rw [hstart'] at hmem
  rw [hterminals, hrules] at hkept
  refine ⟨g, g', hg, hrun, (hlanguage _).mpr ⟨by simp [hterminals], ?_⟩, ?_⟩
  · rw [hstart, hrules]
    exact hs.trans ((Derives.refl _ ["a"]).append ha)
  · exact hkept "S" hmem ⟨"A", ["b"]⟩ (by decide) ["a"] [] ["a", "b"] (by decide) hs (.refl _ _)

/-! ### The result from the rules -/

lemma needed_iff_eq_start (hblocked : ∀ r, g.Living r → r.left ≠ g.start) : g.Needed n ↔ n = g.start := by
  constructor
  · intro hn
    rcases hn.cases_head with heq | ⟨_, ⟨-, r, hr, hleft, -⟩, -⟩
    · exact heq.symm
    · exact absurd hleft (hblocked r hr)
  · rintro rfl
    exact .refl

lemma Pruned.eq_nil_of_blocked (h : Pruned g g') (hblocked : ∀ r, g.Living r → r.left ≠ g.start) :
    g'.rules = [] ∧ g'.terminals = [] := by
  have hrules : g'.rules = [] := by
    rw [List.eq_nil_iff_forall_not_mem]
    intro r hr
    obtain ⟨hliving, hneeded⟩ := (h.mem_rules r).mp hr
    exact hblocked r hliving ((needed_iff_eq_start hblocked).mp hneeded)
  refine ⟨hrules, ?_⟩
  rw [List.eq_nil_iff_forall_not_mem]
  intro t ht
  obtain ⟨-, r, hr, -⟩ := (h.mem_terminals t).mp ht
  rw [hrules] at hr
  cases hr

lemma Pruned.nonterminals_of_blocked (h : Pruned g g') (hg' : g'.Consistent)
    (hblocked : ∀ r, g.Living r → r.left ≠ g.start) : g'.nonterminals = [g.start] := by
  apply eq_singleton_of_nodup hg'.nonterminals_nodup
  intro n
  rw [h.mem_nonterminals, needed_iff_eq_start hblocked]

/-- Pruning leaves the nonterminals that living rules lead to from the start symbol, the living rules for these, and
the terminals of these rules, all in the order in which they were. The dead symbols, which a living rule does not
mention, are the least set that has every nonterminal but the start symbol whose rules all use one of them. If the
start symbol has no living rule, it is all that is left. -/
theorem pruning_leaves_what_living_rules_reach (hg : g.Consistent) :
    IsLeast {symbols | g.ClosedUnderBlocking symbols} {s | g.Dead s} ∧
    ∃ g', prune g = .ok () g' ∧ g'.start = g.start ∧
      (∀ n, n ∈ g'.nonterminals ↔ g.Needed n) ∧
      (∀ r, r ∈ g'.rules ↔ g.Living r ∧ g.Needed r.left) ∧
      (∀ t, t ∈ g'.terminals ↔ t ∈ g.terminals ∧ ∃ r, (g.Living r ∧ g.Needed r.left) ∧ t ∈ r.right) ∧
      g'.terminals.Sublist g.terminals ∧ g'.nonterminals.Sublist g.nonterminals ∧ g'.rules.Sublist g.rules ∧
      ((∀ r, g.Living r → r.left ≠ g.start) →
        g'.nonterminals = [g.start] ∧ g'.rules = [] ∧ g'.terminals = []) := by
  obtain ⟨_, g', hrun, _, _, _, hsteps⟩ := hg.succeeds_pruneSteps
  have hpruned := hsteps.pruned
  have hprunes := hsteps.prunes
  refine ⟨isLeast_dead g, g', hrun, hpruned.start_eq, hpruned.mem_nonterminals, hpruned.mem_rules, ?_,
    hprunes.terminals_sublist, hprunes.nonterminals_sublist, hprunes.rules_sublist, ?_⟩
  · intro t
    rw [hpruned.mem_terminals]
    simp only [hpruned.mem_rules]
  · intro hblocked
    exact ⟨hpruned.nonterminals_of_blocked hsteps.consistent' hblocked, hpruned.eq_nil_of_blocked hblocked⟩

/-- The start symbol leads to `A`, which leads to `B`, which has no rule; `U` has one of its own. -/
def blockedStart : List Rule :=
  [⟨"S", ["a", "A"]⟩, ⟨"A", ["B", "A"]⟩, ⟨"U", ["a"]⟩]

theorem pruning_of_blockedStart :
    ∃ g g', ofParts "S" ["a"] ["A", "B", "U"] blockedStart .standard = .ok g ∧ prune g = .ok () g' ∧
      g'.nonterminals = ["S"] ∧ g'.rules = [] ∧ g'.terminals = [] := by
  obtain ⟨g, hg, hcontents⟩ := ofParts_eq_ok "S" ["a"] ["A", "B", "U"] blockedStart .standard
    (by decide) (by decide) (by decide) (by decide) (by decide)
  obtain ⟨hstart, -, hnonterminals, hrules, -⟩ := Contents.mk.inj hcontents
  obtain ⟨⟨hclosed, -⟩, g', hrun, -, -, -, -, -, -, -, hnone⟩ := pruning_leaves_what_living_rules_reach (.ofParts hg)
  have hblocked := hclosed.blocked_mem
  rw [hstart, hnonterminals, hrules] at hblocked
  have hb : g.Dead "B" := hblocked "B" (by decide) (by decide) (by simp [blockedStart])
  have ha : g.Dead "A" := hblocked "A" (by decide) (by decide) (by simp [blockedStart, hb])
  rw [hstart] at hnone
  have huse : ∀ r ∈ blockedStart, r.left = "S" → "A" ∈ r.right := by decide
  refine ⟨g, g', hg, hrun, hnone ?_⟩
  rintro r ⟨hr, -, hright⟩ hleft
  rw [hrules] at hr
  exact hright "A" (huse r hr hleft) ha

/-! ### A second run -/

namespace NothingDead

lemma deadEnds?_eq_none (h : g.NothingDead) : g.deadEnds? = none := by
  cases hfind : g.deadEnds? with
  | none => rfl
  | some found =>
    obtain ⟨hne, -, hfound⟩ := mem_of_deadEnds? hfind
    obtain ⟨n, hn⟩ := List.exists_mem_of_ne_nil found hne
    obtain ⟨hmem, hstart, hruleless⟩ := hfound n hn
    obtain ⟨r, hr, hleft⟩ := h.exists_rule n hmem hstart
    exact absurd hleft (hruleless r hr)

lemma succeeds_prune (h : g.NothingDead) : Succeeds prune g fun _ g' => g' = g := by
  have hdead : Succeeds (discard removeDeadEnds) g fun _ g' => g' = g := by
    apply Succeeds.discard
    apply Succeeds.get_bind
    exact ⟨_, g, Edit.exhaust_of_none h.deadEnds?_eq_none _ _, rfl⟩
  have hunreachable : Succeeds removeUnreachable g fun _ g' => g' = g := by
    apply Succeeds.get_bind
    rw [h.unreachable_eq_nil]
    exact ⟨(), g, rfl, rfl⟩
  apply Succeeds.internal
  apply Succeeds.bind hdead
  rintro _ _ rfl
  apply Succeeds.bind hunreachable
  rintro _ _ rfl
  apply Succeeds.get_bind
  rw [h.unusedTerminals_eq_nil]
  exact ⟨(), _, rfl, rfl⟩

end NothingDead

/-- One run of pruning is enough: every nonterminal but perhaps the start symbol has a rule, rules lead to every
nonterminal from the start symbol, and every terminal is used. A second run leaves the grammar as it is. -/
theorem one_pruning_is_enough (hg : g.Consistent) :
    ∃ g', prune g = .ok () g' ∧
      (∀ n ∈ g'.nonterminals, n ≠ g'.start → ∃ r ∈ g'.rules, r.left = n) ∧
      (∀ n ∈ g'.nonterminals,
        Relation.ReflTransGen (fun a b => ∃ r ∈ g'.rules, r.left = a ∧ b ∈ r.right) g'.start n) ∧
      (∀ t ∈ g'.terminals, ∃ r ∈ g'.rules, t ∈ r.right) ∧
      prune g' = .ok () g' := by
  obtain ⟨_, g', hrun, hg', -, hnothing⟩ := hg.succeeds_prune
  obtain ⟨_, _, hrun', rfl⟩ := hnothing.succeeds_prune
  refine ⟨_, hrun, hnothing.exists_rule, ?_, ?_, hrun'⟩
  · intro n hn
    apply Relation.ReflTransGen.mono _ _ _ (hnothing.leadsTo hg' hn)
    intro a b hstep
    exact (hg'.mem_successors.mp hstep).2
  · intro t ht
    exact hnothing.exists_use hg' ht

theorem second_pruning_of_deadBranches :
    ∃ g g', ofParts "S" ["a", "b", "c"] ["A", "B", "C", "D", "U"] deadBranches .standard = .ok g ∧
      prune g = .ok () g' ∧ prune g' = .ok () g' ∧ ∀ t ∈ g'.terminals, ∃ r ∈ g'.rules, t ∈ r.right := by
  obtain ⟨g, hg, -⟩ := exists_deadBranches
  obtain ⟨g', hrun, -, -, hused, hagain⟩ := one_pruning_is_enough (.ofParts hg)
  exact ⟨g, g', hg, hrun, hagain, hused⟩

end ContextFree.Grammar

import ContextFree.Proofs.Attainability
import ContextFree.Proofs.EpsilonErasure
import ContextFree.Proofs.RuleSplitting
import ContextFree.Proofs.TerminalIsolation
import ContextFree.Proofs.UnitChains

/-!
# What stages leave in place

The stages before pruning add and erase rules in turns, and what one round adds the next may erase. From the first
round to the last the old symbols stay where they are, and the old rules that are left stay in their order, in front
of all that is new. For this it is enough to look at one round, as what it adds was not there when the stage began
either: its rules use a new symbol, or else it brings back none of the rules that were erased before it.
-/

namespace ContextFree

section Lists

variable {α : Type} {l l' kept added : List α}

/-- A list may have lost elements; those that it gained are new to it and stand at the end. -/
def AddsBehind (l l' : List α) : Prop :=
  ∃ kept added, l' = kept ++ added ∧ kept.Sublist l ∧ ∀ x ∈ added, x ∉ l

namespace AddsBehind

lemma refl (l : List α) : AddsBehind l l :=
  ⟨l, [], by simp, .refl l, by simp⟩

lemma step (h : AddsBehind l l') (hkept : kept.Sublist l') (hnew : ∀ x ∈ added, x ∉ l) :
    AddsBehind l (kept ++ added) := by
  obtain ⟨kept₀, added₀, rfl, hkept₀, hnew₀⟩ := h
  obtain ⟨k, a, rfl, hk, ha⟩ := List.sublist_append_iff.mp hkept
  refine ⟨k, a ++ added, List.append_assoc _ _ _, hk.trans hkept₀, fun x hx => ?_⟩
  rcases List.mem_append.mp hx with hx | hx
  · exact hnew₀ x (ha.subset hx)
  · exact hnew x hx

lemma exists_eq_filter_append [DecidableEq α] (h : AddsBehind l l') (hl : l.Nodup) :
    ∃ added, l' = l.filter (· ∈ l') ++ added ∧ ∀ x ∈ added, x ∉ l := by
  obtain ⟨kept, added, rfl, hkept, hnew⟩ := h
  refine ⟨added, ?_, hnew⟩
  have hstays : kept.Sublist (l.filter (· ∈ kept ++ added)) := by
    have hfilter := hkept.filter (· ∈ kept ++ added)
    rwa [List.filter_eq_self.mpr fun x hx => by simp [hx]] at hfilter
  have hsubset : l.filter (· ∈ kept ++ added) ⊆ kept := by
    intro x hx
    obtain ⟨hx, hmem⟩ := List.mem_filter.mp hx
    exact (List.mem_append.mp (of_decide_eq_true hmem)).resolve_right fun hadded => hnew x hadded hx
  rw [← hstays.eq_of_length_le ((hl.filter _).subperm hsubset).length_le]

end AddsBehind

end Lists

namespace Grammar

variable {g₀ g g' : Grammar} {names : List Symbol} {start z : Symbol} {kept added : List Rule}

/-- What a grammar has in common with an earlier one that has got some new nonterminals since. -/
structure Frame (names : List Symbol) (g g' : Grammar) : Prop where
  terminals_eq : g'.terminals = g.terminals
  nonterminals_eq : g'.nonterminals = g.nonterminals ++ names
  namer_eq : g'.namer = g.namer
  names_fresh : ∀ n ∈ names, n ∉ g.symbols
  rules : AddsBehind g.rules g'.rules

namespace Frame

lemma refl (g : Grammar) : Frame [] g g :=
  ⟨rfl, (List.append_nil _).symm, rfl, by simp, .refl _⟩

lemma of_rulesOnly (h : RulesOnly g g') (hrules : AddsBehind g.rules g'.rules) : Frame [] g g' where
  terminals_eq := h.terminals_eq
  nonterminals_eq := by rw [h.nonterminals_eq, List.append_nil]
  namer_eq := congrArg Contents.namer h
  names_fresh := by simp
  rules := hrules

lemma mem_symbols (h : Frame names g₀ g) (hz : z ∈ g₀.symbols) : z ∈ g.symbols := by
  rw [symbols, h.terminals_eq, h.nonterminals_eq, ← List.append_assoc]
  exact List.mem_append_left _ hz

lemma naming (h : Frame names g₀ g) (hg₀ : g₀.Consistent) (hround : NamingStep z start (kept ++ added) g g')
    (hkept : kept.Sublist g.rules) (huse : ∀ r ∈ added, r.left = z ∨ z ∈ r.right) :
    Frame (names ++ [z]) g₀ g' := by
  have hz : z ∉ g₀.symbols := fun hz => hround.fresh (h.mem_symbols hz)
  constructor
  · exact hround.terminals_eq.trans h.terminals_eq
  · rw [hround.nonterminals_eq, h.nonterminals_eq, List.append_assoc]
  · exact (congrArg Contents.namer hround.contents_eq).trans h.namer_eq
  · intro n hn
    rcases List.mem_append.mp hn with hn | hn
    · exact h.names_fresh n hn
    · exact List.mem_singleton.mp hn ▸ hz
  · rw [hround.rules_eq]
    refine h.rules.step hkept fun r hr hold => ?_
    rcases huse r hr with hleft | hright
    · exact hg₀.left_ne_of_fresh hz hold hleft
    · exact hg₀.notMem_right_of_fresh hz hold hright

end Frame

/-! ### Stages that name symbols -/

lemma Consistent.succeeds_isolateTerminals_framed (hg : g.Consistent) :
    Succeeds isolateTerminals g fun _ g' => g'.start = g.start ∧ ∃ names, Frame names g g' := by
  refine Succeeds.internal (Succeeds.discard ?_)
  refine (hg.succeeds_isolateMixed (fun _ h => h.start = g.start ∧ ∃ names, Frame names g h)
    ⟨rfl, [], .refl g⟩ ?_).mono fun _ _ hpost => hpost.2.1
  rintro _ t z h h' - hround ⟨hstart, names, hframe⟩
  refine ⟨hround.start_eq.trans hstart, names ++ [z], ?_⟩
  refine hframe.naming hg hround.toNamingStep List.filter_sublist fun r hr => ?_
  rcases List.mem_cons.mp hr with rfl | hr
  · exact .inl rfl
  · obtain ⟨o, ho, rfl⟩ := List.mem_map.mp hr
    have ht := (Rule.mixes_iff.mp (List.mem_filter.mp ho).2).2
    exact .inr (Rule.mem_substitute ht)

lemma Consistent.succeeds_splitRules_framed (hg : g.Consistent) :
    Succeeds splitRules g fun _ g' => g'.start = g.start ∧ ∃ names, Frame names g g' := by
  refine Succeeds.internal (Succeeds.discard ?_)
  refine (hg.succeeds_splitLong (fun _ h => h.start = g.start ∧ ∃ names, Frame names g h)
    ⟨rfl, [], .refl g⟩ ?_).mono fun _ _ hpost => hpost.2.1
  rintro _ r s rest z h h' - hround ⟨hstart, names, hframe⟩
  refine ⟨hround.start_eq.trans hstart, names ++ [z], ?_⟩
  refine hframe.naming hg hround.toNamingStep List.filter_sublist fun o ho => ?_
  rcases List.mem_pair.mp ho with rfl | rfl
  · exact .inr (by simp)
  · exact .inl rfl

lemma Consistent.succeeds_freshenStart_framed (hg : g.Consistent) :
    Succeeds freshenStart g fun _ g' => g'.start ≠ g.start ∧ Frame [g'.start] g g' := by
  refine hg.succeeds_freshenStart.mono ?_
  rintro _ g' ⟨-, hstep⟩
  rw [hstep.start_eq]
  refine ⟨hstep.start_ne.symm, (Frame.refl g).naming hg hstep.toNamingStep (.refl _) fun r hr => ?_⟩
  rw [List.mem_singleton.mp hr]
  exact .inl rfl

/-! ### Stages that change rules only -/

/-- The rules that a round of erasure adds are not old: it would have met those that are left, and those that are
not are epsilon rules that it does not bring back. -/
lemma Erasing.notMem_of_new {past : List Symbol} {a : Symbol} {r : Rule} (h : Erasing g₀ past g)
    (hr : r ∈ g.erasureRules past a) (hnew : r ∉ g.rules) : r ∉ g₀.rules := by
  intro hold
  rcases h.kept r hold with hleft | ⟨hnil, hpast⟩
  · exact hnew hleft
  · exact (mem_erasureRules.mp hr).2.2 ⟨hnil, List.mem_append_left _ hpast⟩

lemma Consistent.succeeds_eraseEpsilons_framed (hg : g.Consistent) :
    Succeeds eraseEpsilons g fun _ g' => g'.start = g.start ∧ Frame [] g g' := by
  refine Succeeds.internal (Succeeds.discard ?_)
  refine (hg.succeeds_eraseErasable_keeping (fun h => AddsBehind g.rules h.rules) (.refl _) ?_).mono ?_
  · rintro past a h h' hpast - ⟨added, hrules, hadded⟩ hbehind
    rw [hrules]
    exact hbehind.step List.filter_sublist fun r hr => hpast.notMem_of_new (hadded r hr).1 (hadded r hr).2
  · rintro _ g' ⟨-, hpast, hbehind, -⟩
    exact ⟨hpast.rulesOnly.start_eq, .of_rulesOnly hpast.rulesOnly hbehind⟩

lemma Consistent.succeeds_collapseUnits_framed (hg : g.Consistent) :
    Succeeds collapseUnits g fun _ g' => g'.start = g.start ∧ Frame [] g g' := by
  refine hg.succeeds_collapseUnits_listed.mono ?_
  rintro _ g' ⟨-, hcollapsed, added, hrules, hadded⟩
  have hbehind : AddsBehind g.rules g'.rules := ⟨_, added, hrules, List.filter_sublist, hadded⟩
  exact ⟨hcollapsed.rulesOnly.start_eq, .of_rulesOnly hcollapsed.rulesOnly hbehind⟩

end Grammar

/-! ### All stages -/

namespace Stage

open Grammar (Frame)

variable {g : Grammar} {stage : Stage}

lemma succeeds_framed (hg : g.Consistent) (hstage : stage ≠ pruning) :
    Succeeds stage.edit g fun _ g' => (g'.start = g.start ↔ stage ≠ freshStart) ∧ ∃ names, Frame names g g' ∧
      (stage = erasure ∨ stage = unitCollapse → names = []) ∧ (stage = freshStart → names = [g'.start]) := by
  cases stage with
  | isolation =>
    apply hg.succeeds_isolateTerminals_framed.mono
    rintro _ g' ⟨hstart, names, hframe⟩
    exact ⟨by simp [hstart], names, hframe, by simp, by simp⟩
  | splitting =>
    apply hg.succeeds_splitRules_framed.mono
    rintro _ g' ⟨hstart, names, hframe⟩
    exact ⟨by simp [hstart], names, hframe, by simp, by simp⟩
  | freshStart =>
    apply hg.succeeds_freshenStart_framed.mono
    rintro _ g' ⟨hstart, hframe⟩
    exact ⟨by simp [hstart], _, hframe, by simp, fun _ => rfl⟩
  | erasure =>
    apply hg.succeeds_eraseEpsilons_framed.mono
    rintro _ g' ⟨hstart, hframe⟩
    exact ⟨by simp [hstart], _, hframe, fun _ => rfl, by simp⟩
  | unitCollapse =>
    apply hg.succeeds_collapseUnits_framed.mono
    rintro _ g' ⟨hstart, hframe⟩
    exact ⟨by simp [hstart], _, hframe, fun _ => rfl, by simp⟩
  | pruning => exact absurd rfl hstage

/-- A stage before pruning leaves the terminals as they are and puts its nonterminals, all of them new, behind the
old ones: none of them in erasure and in the collapse of unit rules, and the new start symbol alone in the stage that
replaces the start symbol, which no other stage does. The old rules that are left at the end are in their order, and
all rules that were not there before stand behind them. -/
theorem stages_put_new_behind_old (hg : g.Consistent) (hstage : stage ≠ pruning) :
    ∃ g', stage.edit g = .ok () g' ∧ g'.terminals = g.terminals ∧ g'.namer = g.namer ∧
      (∃ names, g'.nonterminals = g.nonterminals ++ names ∧
        (∀ n ∈ names, n ∉ g.terminals ∧ n ∉ g.nonterminals) ∧
        (stage = erasure ∨ stage = unitCollapse → names = []) ∧ (stage = freshStart → names = [g'.start])) ∧
      (g'.start = g.start ↔ stage ≠ freshStart) ∧
      ∃ added, g'.rules = g.rules.filter (· ∈ g'.rules) ++ added ∧ ∀ r ∈ added, r ∉ g.rules := by
  obtain ⟨_, g', hrun, hstart, names, hframe, hnone, hone⟩ := succeeds_framed hg hstage
  refine ⟨g', hrun, hframe.terminals_eq, hframe.namer_eq, ⟨names, hframe.nonterminals_eq, ?_, hnone, hone⟩, hstart,
    hframe.rules.exists_eq_filter_append hg.rules_nodup⟩
  intro n hn
  have hfresh := hframe.names_fresh n hn
  rwa [Grammar.symbols, List.mem_append, not_or] at hfresh

/-- The rules `S -> A b`, `A -> epsilon` and `A -> a`. -/
def optionalPrefix : List Rule :=
  [⟨"S", ["A", "b"]⟩, ⟨"A", []⟩, ⟨"A", ["a"]⟩]

/-- Erasure takes the middle one of the rules, and what it adds comes after the other two. -/
theorem erasure_of_optionalPrefix :
    ∃ g g', Grammar.ofParts "S" ["a", "b"] ["A"] optionalPrefix .standard = .ok g ∧
      Grammar.eraseEpsilons g = .ok () g' ∧ g'.start = "S" ∧ g'.nonterminals = ["S", "A"] ∧
      ∃ added, g'.rules = [⟨"S", ["A", "b"]⟩, ⟨"A", ["a"]⟩] ++ added ∧ ⟨"S", ["b"]⟩ ∈ added := by
  obtain ⟨g, hg, hcontents⟩ := Grammar.ofParts_eq_ok "S" ["a", "b"] ["A"] optionalPrefix .standard
    (by decide) (by decide) (by decide) (by decide) (by decide)
  obtain ⟨hstart, -, hnonterminals, hrules, -⟩ := Grammar.Contents.mk.inj hcontents
  have hconsistent : g.Consistent := .ofParts hg
  have hstage : erasure ≠ pruning := by decide
  obtain ⟨g', hrun, -, -, ⟨names, hnames, -, hnone, -⟩, hstart', added, hadded, -⟩ :=
    stages_put_new_behind_old hconsistent hstage
  obtain ⟨_, _, hrun', -, herased, -⟩ := hconsistent.succeeds_eraseEpsilons
  cases hrun.symm.trans hrun'
  have hmem := herased.mem_rules
  rw [hstart, hrules] at hmem
  have hvanishing : g.Vanishing "A" := .intro (r := ⟨"A", []⟩) (by simp [hrules, optionalPrefix]) (by simp [hstart])
    (by simp)
  have hfirst : ⟨"S", ["A", "b"]⟩ ∈ g'.rules := (hmem _).mpr ⟨⟨_, by decide, rfl, .refl _⟩, by simp, by simp⟩
  have hlast : ⟨"A", ["a"]⟩ ∈ g'.rules := (hmem _).mpr ⟨⟨_, by decide, rfl, .refl _⟩, by simp, by simp⟩
  have hgone : ⟨"A", []⟩ ∉ g'.rules := fun h => absurd (((hmem _).mp h).2.2 rfl) (by decide)
  have hshort : ⟨"S", ["b"]⟩ ∈ g'.rules :=
    (hmem _).mpr ⟨⟨⟨"S", ["A", "b"]⟩, by decide, rfl, .drop hvanishing (.refl _)⟩, by simp, by simp⟩
  have hkept : g.rules.filter (· ∈ g'.rules) = [⟨"S", ["A", "b"]⟩, ⟨"A", ["a"]⟩] := by
    simp [hrules, optionalPrefix, hfirst, hlast, hgone]
  rw [hkept] at hadded
  refine ⟨g, g', hg, hrun, (hstart'.mpr (by decide)).trans hstart, ?_, added, hadded, ?_⟩
  · rw [hnames, hnone (.inl rfl), hnonterminals]
    rfl
  · rw [hadded] at hshort
    simpa using hshort

end Stage

end ContextFree

import ContextFree.Proofs.Conversions
import ContextFree.Proofs.NewNames

/-!
# What stages make of a grammar

Every stage is described by its result alone: the symbols and rules after it, in terms of those before it. The two
stages that look for right sides to change leave the grammar as it is if they find none. A conversion that is not
disturbed is a chain of such results.
-/

namespace ContextFree

lemma Edit.exhaust_of_none {α : Type} {find : Grammar → Option α} {act : List α → α → Edit Unit} {g : Grammar}
    (h : find g = none) (rounds : Nat) (past : List α) : Edit.exhaust find act rounds past g = .ok past g := by
  cases rounds with
  | zero => rfl
  | succ rounds =>
    have hget : (MonadState.get : Edit Grammar) g = .ok g g := rfl
    refine (bind_of_ok hget).trans ?_
    rw [h]
    rfl

namespace Grammar

variable {g g' : Grammar}

lemma Consistent.mixedTerminal?_eq_none (hg : g.Consistent) (h : g.TerminalsAlone) : g.mixedTerminal? = none := by
  cases hfind : g.mixedTerminal? with
  | none => rfl
  | some t =>
    have ht := hg.mem_mixedTerminals hfind
    rw [mixedTerminals_eq_nil h] at ht
    cases ht

lemma longRule?_eq_none (h : g.RulesShort) : g.longRule? = none := by
  apply List.find?_eq_none.mpr
  intro r hr
  have := h r hr
  simpa using this

lemma Consistent.succeeds_isolateTerminals_of_alone (hg : g.Consistent) (h : g.TerminalsAlone) :
    Succeeds isolateTerminals g fun _ g' => g' = g := by
  apply Succeeds.internal
  apply Succeeds.discard
  apply Succeeds.get_bind
  exact ⟨_, g, Edit.exhaust_of_none (hg.mixedTerminal?_eq_none h) _ _, rfl⟩

lemma succeeds_splitRules_of_short (h : g.RulesShort) : Succeeds splitRules g fun _ g' => g' = g := by
  apply Succeeds.internal
  apply Succeeds.discard
  apply Succeeds.get_bind
  exact ⟨_, g, Edit.exhaust_of_none (longRule?_eq_none h) _ _, rfl⟩

end Grammar

namespace Stage

variable {g g' : Grammar} {stage : Stage}

/-- The grammars before and after a stage. -/
def Makes : Stage → Grammar → Grammar → Prop
  | isolation, g, g' => (∃ names, Grammar.Isolated names g g') ∧ (g.TerminalsAlone → g' = g)
  | splitting, g, g' => (∃ names, Grammar.Split names g g') ∧ (g.RulesShort → g' = g)
  | freshStart, g, g' => Grammar.StartStep g.freshName g g'
  | erasure, g, g' => Grammar.Erased g g'
  | unitCollapse, g, g' => Grammar.Collapsed g g'
  | pruning, g, g' => Grammar.Pruned g g'

lemma succeeds_makes (stage : Stage) (hg : g.Consistent) :
    Succeeds stage.edit g fun _ g' => g'.Consistent ∧ stage.Makes g g' := by
  cases stage with
  | isolation =>
    by_cases halone : g.TerminalsAlone
    · apply (hg.succeeds_isolateTerminals_of_alone halone).mono
      rintro _ _ rfl
      exact ⟨hg, ⟨id, .refl (Grammar.mixedTerminals_eq_nil halone)⟩, fun _ => rfl⟩
    · apply hg.succeeds_isolateTerminals_exactly.mono
      rintro _ g' ⟨hg', hisolated⟩
      exact ⟨hg', hisolated, fun h => absurd h halone⟩
  | splitting =>
    by_cases hshort : g.RulesShort
    · apply (Grammar.succeeds_splitRules_of_short hshort).mono
      rintro _ _ rfl
      exact ⟨hg, ⟨_, .refl hshort fun r _ => r.left⟩, fun _ => rfl⟩
    · apply hg.succeeds_splitRules_exactly.mono
      rintro _ g' ⟨hg', hsplit⟩
      exact ⟨hg', hsplit, fun h => absurd h hshort⟩
  | freshStart => exact hg.succeeds_freshenStart
  | erasure =>
    apply hg.succeeds_eraseEpsilons.mono
    rintro _ g' ⟨hg', herased, -⟩
    exact ⟨hg', herased⟩
  | unitCollapse => exact hg.succeeds_collapseUnits
  | pruning => exact hg.succeeds_prune_exactly

lemma Makes.mem_symbols {s : Symbol} (h : stage.Makes g g') (hstage : stage ≠ pruning) (hs : s ∈ g.symbols) :
    s ∈ g'.symbols := by
  rw [Grammar.symbols, List.mem_append] at hs ⊢
  cases stage with
  | isolation =>
    obtain ⟨⟨names, hnames⟩, -⟩ := h
    rw [hnames.terminals_eq, hnames.mem_nonterminals]
    exact hs.imp_right .inl
  | splitting =>
    obtain ⟨⟨names, hnames⟩, -⟩ := h
    rw [hnames.terminals_eq, hnames.mem_nonterminals]
    exact hs.imp_right .inl
  | freshStart =>
    rw [← List.mem_append]
    exact (Grammar.StartStep.toNamingStep h).mem_symbols.mpr (.inl (List.mem_append.mpr hs))
  | erasure =>
    rwa [(Grammar.Erased.rulesOnly h).terminals_eq, (Grammar.Erased.rulesOnly h).nonterminals_eq]
  | unitCollapse =>
    rwa [(Grammar.Collapsed.rulesOnly h).terminals_eq, (Grammar.Collapsed.rulesOnly h).nonterminals_eq]
  | pruning => exact absurd rfl hstage

end Stage

/-- The grammars before and after a sequence of stages. -/
inductive Converts : List Stage → Grammar → Grammar → Prop where
  | nil {g : Grammar} (consistent : g.Consistent) : Converts [] g g
  | cons {stage : Stage} {stages : List Stage} {g g₁ g' : Grammar} (consistent : g.Consistent)
      (first : stage.Makes g g₁) (rest : Converts stages g₁ g') : Converts (stage :: stages) g g'

lemma Converts.exists_first {stage : Stage} {stages : List Stage} {g g' : Grammar}
    (h : Converts (stage :: stages) g g') : ∃ g₁, stage.Makes g g₁ ∧ Converts stages g₁ g' := by
  cases h with
  | cons _ first rest => exact ⟨_, first, rest⟩

lemma Converts.consistent {stages : List Stage} {g g' : Grammar} (h : Converts stages g g') : g.Consistent := by
  cases h <;> assumption

lemma succeeds_converts {ω : Type} {observer : Observer ω} (hidle : observer.Idle) (hpatient : observer.Patient)
    (stages : List Stage) {g : Grammar} (hg : g.Consistent) (records : ω) :
    Succeeds (stages.forM (observedStage observer)) (g, records) fun _ s => Converts stages g s.1 := by
  induction stages generalizing g records with
  | nil => exact Succeeds.pure (.nil hg)
  | cons stage stages ih =>
    apply Succeeds.bind (succeeds_observedStage hidle hpatient (stage.succeeds_makes hg))
    rintro _ ⟨g₁, records₁⟩ ⟨hg₁, hmakes⟩
    apply (ih hg₁ records₁).mono
    intro _ s hs
    exact .cons hg hmakes hs

end ContextFree

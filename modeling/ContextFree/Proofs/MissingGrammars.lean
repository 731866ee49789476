import ContextFree.Normal.Target
import ContextFree.Proofs.Copies

/-!
# Missing grammars

Stages fail by breaking an invariant, conversions also by being stopped, and checks by what is wrong with a grammar.
So a request is refused for want of a grammar if and only if there is none.
-/

namespace ContextFree

variable {ω α : Type} {observer : Observer ω} {target : Target} {records : ω} {g : Grammar}

lemma internal_ne_noGrammar (edit : Edit α) (g g' : Grammar) : Edit.internal edit g ≠ .error .noGrammar g' := by
  unfold Edit.internal EStateM.adaptExcept
  cases edit g with
  | ok a g₁ => simp
  | error e g₁ => cases e <;> simp [Error.asInvariant]

lemma stage_ne_noGrammar (stage : Stage) (g g' : Grammar) : stage.edit g ≠ .error .noGrammar g' := by
  cases stage <;> exact internal_ne_noGrammar _ g g'

lemma observedStage_ne_noGrammar (stage : Stage) (s s' : Grammar × ω) :
    observedStage observer stage s ≠ .error .noGrammar s' := by
  intro h
  cases hrun : stage.edit s.1 with
  | ok a g =>
    rw [observedStage_eq hrun, EStateM.adaptExcept] at h
    split at h <;> cases h
  | error e g =>
    have hedit : Observed.ofEdit stage.edit s = .error e (g, s.2) := by
      simp only [Observed.ofEdit, hrun]
    have herror := (bind_of_error hedit).symm.trans h
    cases herror
    exact stage_ne_noGrammar stage s.1 g hrun

lemma normalize_ne_noGrammar (s s' : Grammar × ω) : Grammar.normalize observer s ≠ .error .noGrammar s' := by
  rw [normalize_eq]
  generalize Stage.all = stages
  induction stages generalizing s with
  | nil => exact fun h => nomatch h
  | cons stage stages ih =>
    intro h
    cases hrun : observedStage observer stage s with
    | ok a s₁ => exact ih s₁ ((forM_cons_of_ok stages hrun).symm.trans h)
    | error e s₁ =>
      have herror := (forM_cons_of_error stages hrun).symm.trans h
      cases herror
      exact observedStage_ne_noGrammar stage s s' hrun

namespace Target

lemma run_eq_noGrammar_iff {observed : Observed ω α} (hne : ∀ s s', observed s ≠ .error .noGrammar s') :
    (∃ s, run observed (target, records) = .error .noGrammar s) ↔ target = none := by
  cases target with
  | none => exact ⟨fun _ => rfl, fun _ => ⟨(none, records), rfl⟩⟩
  | some g =>
    simp only [reduceCtorEq, iff_false, not_exists]
    intro s h
    unfold run at h
    cases hrun : observed (g, records) with
    | ok a s₁ => simp [hrun] at h
    | error e s₁ =>
      simp only [hrun] at h
      cases h
      exact hne _ _ hrun

lemma checkNormal_eq_noGrammar_iff : target.checkNormal = .error .noGrammar ↔ target = none := by
  cases target with
  | none => exact ⟨fun _ => rfl, fun _ => rfl⟩
  | some g =>
    simp only [checkNormal, Grammar.checkNormal, reduceCtorEq, iff_false]
    split <;> simp

lemma normalized_eq_noGrammar_iff (hg : ∀ g ∈ target, g.Consistent) :
    (target.normalized observer records).1 = .error .noGrammar ↔ target = none := by
  cases target with
  | none => exact ⟨fun _ => rfl, fun _ => rfl⟩
  | some g =>
    simp only [normalized, (hg g rfl).normalized_eq, reduceCtorEq, iff_false]
    cases hrun : Grammar.normalize observer (g, records) with
    | ok a s => simp [conversionOutcome]
    | error e s =>
      intro h
      cases h
      exact normalize_ne_noGrammar _ _ hrun

/-- A stage, a conversion in place or of a copy, and a check of normal form are refused for want of a grammar if and
only if there is none, whatever an observer does. -/
theorem noGrammar_iff_missing (hg : ∀ g ∈ target, g.Consistent) (observer : Observer ω) (records : ω) :
    (∀ stage, (∃ s, runStage stage (target, records) = .error .noGrammar s) ↔ target = none) ∧
    ((∃ s, normalize observer (target, records) = .error .noGrammar s) ↔ target = none) ∧
    ((target.normalized observer records).1 = .error .noGrammar ↔ target = none) ∧
    (target.checkNormal = .error .noGrammar ↔ target = none) := by
  refine ⟨fun stage => ?_, ?_, normalized_eq_noGrammar_iff hg, checkNormal_eq_noGrammar_iff⟩
  · apply run_eq_noGrammar_iff
    intro s s' h
    unfold Observed.ofEdit at h
    cases hrun : stage.edit s.1 with
    | ok a g => simp [hrun] at h
    | error e g =>
      simp only [hrun] at h
      cases h
      exact stage_ne_noGrammar stage _ _ hrun
  · exact run_eq_noGrammar_iff normalize_ne_noGrammar

end Target

end ContextFree

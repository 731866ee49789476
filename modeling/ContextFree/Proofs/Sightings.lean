import ContextFree.Proofs.Conversions

/-!
# What observers are shown

A log beside the records of an observer keeps every grammar that the observer is shown, as the stage left it. It
changes nothing about the conversion. If the observer leaves the grammar alone, each grammar in the log satisfies
the conditions of its stage and of all stages before it: no stage spoils what an earlier one established, and all
but one of the conditions are kept each by itself.
-/

namespace ContextFree

namespace Stage

/-- On a consistent grammar with the first property the stage succeeds, and leaves one with the second. -/
def Ensures (stage : Stage) (pre post : Grammar → Prop) : Prop :=
  ∀ g : Grammar, g.Consistent → pre g → Succeeds stage.edit g fun _ g' => g'.Consistent ∧ post g'

lemma ensures_condition (stage : Stage) : stage.Ensures (fun _ => True) stage.Condition := by
  intro g hg _
  apply (hg.succeeds_stage stage).mono
  intro _ g' houtcome
  exact ⟨houtcome.consistent, houtcome.condition⟩

lemma collapse_ensures_epsilonAtStart :
    unitCollapse.Ensures (fun g => g.StartUnused ∧ g.EpsilonAtStart) Grammar.EpsilonAtStart := by
  rintro g hg ⟨hstart, hepsilon⟩
  apply hg.succeeds_collapseUnits.mono
  rintro _ g' ⟨hg', hcollapsed⟩
  exact ⟨hg', hcollapsed.epsilonAtStart hg hstart hepsilon⟩

lemma ensures_of_mem_before {stage s : Stage} (hs : s ∈ stage.before)
    (hother : ¬(stage = unitCollapse ∧ s = erasure)) : stage.Ensures s.Condition s.Condition := by
  intro g hg hcondition
  cases stage with
  | isolation => simp [before, all] at hs
  | splitting =>
    apply hg.succeeds_splitRules.mono
    rintro _ g' ⟨hg', -, -, halone, -⟩
    obtain rfl : s = isolation := by simpa [before, all] using hs
    exact ⟨hg', halone hcondition⟩
  | freshStart =>
    apply hg.succeeds_freshenStart.mono
    rintro _ g' ⟨hg', hround⟩
    refine ⟨hg', ?_⟩
    obtain rfl | rfl : s = isolation ∨ s = splitting := by simpa [before, all] using hs
    · exact hround.terminalsAlone hcondition
    · exact hround.rulesShort hcondition
  | erasure =>
    apply hg.succeeds_eraseEpsilons.mono
    rintro _ g' ⟨hg', herased, -⟩
    refine ⟨hg', ?_⟩
    obtain rfl | rfl | rfl : s = isolation ∨ s = splitting ∨ s = freshStart := by
      simpa [before, all] using hs
    · exact herased.terminalsAlone hcondition
    · exact herased.rulesShort hcondition
    · exact herased.startUnused hcondition
  | unitCollapse =>
    apply hg.succeeds_collapseUnits.mono
    rintro _ g' ⟨hg', hcollapsed⟩
    refine ⟨hg', ?_⟩
    obtain rfl | rfl | rfl | rfl : s = isolation ∨ s = splitting ∨ s = freshStart ∨ s = erasure := by
      simpa [before, all] using hs
    · exact hcollapsed.terminalsAlone hcondition
    · exact hcollapsed.rulesShort hcondition
    · exact hcollapsed.startUnused hcondition
    · exact absurd ⟨rfl, rfl⟩ hother
  | pruning =>
    apply hg.succeeds_prune.mono
    rintro _ g' ⟨hg', hprunes, -⟩
    refine ⟨hg', ?_⟩
    obtain rfl | rfl | rfl | rfl | rfl :
        s = isolation ∨ s = splitting ∨ s = freshStart ∨ s = erasure ∨ s = unitCollapse := by
      simpa [before, all] using hs
    · exact hprunes.terminalsAlone hcondition
    · exact hprunes.rulesShort hcondition
    · exact hprunes.startUnused hcondition
    · exact hprunes.epsilonAtStart hcondition
    · exact hprunes.unitFree hcondition

end Stage

/-! ### The log -/

/-- What an observer is shown: stages, and the grammar as each of them left it. -/
abbrev Sightings := List (Stage × Grammar)

variable {ω : Type} {observer : Observer ω} {g : Grammar} {records : ω} {log : Sightings}

/-- The observer, with a log of what it is shown beside its records. -/
def Observer.logged (observer : Observer ω) : Observer (ω × Sightings) := fun stage (g, records, log) =>
  match observer stage (g, records) with
  | .ok a (g', records') => .ok a (g', records', log ++ [(stage, g)])
  | .error e (g', records') => .error e (g', records', log ++ [(stage, g)])

/-- The outcome of a run, with a log beside the records of the observer. -/
def withLog (log : Sightings) : EStateM.Result Error (Grammar × ω) Unit →
    EStateM.Result Error (Grammar × ω × Sightings) Unit
  | .ok a (g, records) => .ok a (g, records, log)
  | .error e (g, records) => .error e (g, records, log)

/-- The log tells of an undisturbed conversion that has come to the end of the stages `done`. -/
structure Sightings.Accumulate (log : Sightings) (done : List Stage) : Prop where
  stages_eq : log.map Prod.fst = done
  condition : ∀ stage h, (stage, h) ∈ log → ∀ s ∈ stage.upTo, s.Condition h

lemma Sightings.Accumulate.append {stage : Stage} (h : log.Accumulate stage.before)
    (hg : ∀ s ∈ stage.upTo, s.Condition g) : Accumulate (log ++ [(stage, g)]) stage.upTo where
  stages_eq := by rw [List.map_append, h.stages_eq, List.map_singleton, Stage.upTo]
  condition s k hmem := by
    rcases List.mem_append.mp hmem with hmem | hmem
    · exact h.condition s k hmem
    · obtain ⟨rfl, rfl⟩ := Prod.mk.inj (List.mem_singleton.mp hmem)
      exact hg

/-- Once some stages are done, the rest of a conversion adds to the log and does not depend on it; what it adds is
as it should be, up to the stage after which the observer stops. -/
lemma exists_log (hidle : observer.Idle) {done stages : List Stage} (hall : Stage.all = done ++ stages)
    (hg : g.Consistent) (hconditions : ∀ s ∈ done, s.Condition g) (hlog : log.Accumulate done) (records : ω) :
    ∃ log' done' later, done ++ stages = done' ++ later ∧ log'.Accumulate done' ∧
      (observer.Patient → later = []) ∧
      stages.forM (observedStage observer.logged) (g, records, log) =
        withLog log' (stages.forM (observedStage observer) (g, records)) := by
  induction stages generalizing done g records log with
  | nil => exact ⟨log, done, [], rfl, hlog, fun _ => rfl, rfl⟩
  | cons stage stages ih =>
    obtain rfl := Stage.eq_before hall
    obtain ⟨_, g₁, hrun, houtcome⟩ := hg.succeeds_stage stage
    have hconditions₁ := houtcome.condition_upTo hconditions
    have hlog₁ := hlog.append hconditions₁
    have hsplit : stage.before ++ stage :: stages = stage.upTo ++ stages := by simp [Stage.upTo]
    have hplain : observedStage observer stage (g, records) = _ := observedStage_eq hrun
    have hlogged : observedStage observer.logged stage (g, records, log) = _ := observedStage_eq hrun
    cases hobserver : observer stage (g₁, records) with
    | error e s =>
      simp only [EStateM.adaptExcept, Observer.logged, hobserver] at hplain hlogged
      refine ⟨_, stage.upTo, stages, hsplit, hlog₁, fun hpatient => ?_, ?_⟩
      · obtain ⟨s', hs'⟩ := hpatient stage (g₁, records)
        rw [hs'] at hobserver
        cases hobserver
      · rw [forM_cons_of_error stages hlogged, forM_cons_of_error stages hplain]
        rfl
    | ok a s =>
      obtain ⟨g₂, records₂⟩ := s
      have hsame := hidle stage g₁ records
      rw [stateAfter_of_ok hobserver] at hsame
      obtain rfl : g₂ = g₁ := hsame
      simp only [EStateM.adaptExcept, Observer.logged, hobserver] at hplain hlogged
      obtain ⟨log', done', later, hdone, hlog', hpatient, hrest⟩ :=
        ih (hall.trans hsplit) houtcome.consistent hconditions₁ hlog₁ records₂
      refine ⟨log', done', later, hsplit.trans hdone, hlog', hpatient, ?_⟩
      rw [forM_cons_of_ok stages hlogged, forM_cons_of_ok stages hplain]
      exact hrest

/-- An observer that leaves the grammar alone is shown, after each stage that the conversion comes to, a grammar with
the conditions of that stage and of those before it. Apart from conversions, each stage establishes its own condition
on any consistent grammar and keeps the condition of every stage before it by itself; only the collapse of unit rules
needs a second condition to keep one, a start symbol that is not used. -/
theorem conditions_accumulate (hg : Attainable g) (hidle : observer.Idle) (records : ω) :
    (∃ log, Grammar.normalize observer.logged (g, records, []) =
        withLog log (Grammar.normalize observer (g, records)) ∧
      log.map Prod.fst <+: Stage.all ∧ (observer.Patient → log.map Prod.fst = Stage.all) ∧
      ∀ stage h, (stage, h) ∈ log → ∀ s ∈ stage.upTo, s.Condition h) ∧
    (∀ stage : Stage, stage.Ensures (fun _ => True) stage.Condition) ∧
    (∀ stage s : Stage, s ∈ stage.before → ¬(stage = .unitCollapse ∧ s = .erasure) →
      stage.Ensures s.Condition s.Condition) ∧
    Stage.unitCollapse.Ensures (fun k => k.StartUnused ∧ k.EpsilonAtStart) Grammar.EpsilonAtStart := by
  refine ⟨?_, Stage.ensures_condition, fun _ _ => Stage.ensures_of_mem_before,
    Stage.collapse_ensures_epsilonAtStart⟩
  have hbegin : Sightings.Accumulate [] [] := ⟨rfl, by simp⟩
  obtain ⟨log, done, later, hdone, hlog, hpatient, hrun⟩ :=
    exists_log hidle (List.nil_append _).symm hg.consistent (by simp) hbegin records
  rw [List.nil_append] at hdone
  refine ⟨log, hrun, ?_, fun h => ?_, hlog.condition⟩
  · rw [hlog.stages_eq, hdone]
    exact List.prefix_append _ _
  · rw [hlog.stages_eq, hdone, hpatient h, List.append_nil]

/-- The conversion of `S -> a S b` and `S -> epsilon` shows six grammars. In the fourth, left by erasure, terminals
stand alone, right sides are short, the start symbol is not used, and only it has an epsilon rule. -/
theorem sightings_of_nestedPairs :
    ∃ g log, Grammar.ofParts "S" ["a", "b"] [] nestedPairs .standard = .ok g ∧
      Grammar.normalize (Observer.idle : Observer Unit).logged (g, (), []) =
        withLog log (Grammar.normalize Observer.idle (g, ())) ∧
      log.map Prod.fst = Stage.all ∧ ∃ h, (Stage.erasure, h) ∈ log ∧ h.TerminalsAlone ∧ h.RulesShort ∧
        h.StartUnused ∧ h.EpsilonAtStart := by
  obtain ⟨g, hg, -⟩ := exists_nestedPairs
  have hidle : (Observer.idle : Observer Unit).Idle := fun _ _ _ => rfl
  obtain ⟨⟨log, hrun, -, hall, hseen⟩, -⟩ := conditions_accumulate (.ofParts hg) hidle ()
  have hstages := hall fun _ s => ⟨s, rfl⟩
  obtain ⟨⟨stage, h⟩, hmem, rfl⟩ : ∃ p ∈ log, p.1 = Stage.erasure := by
    rw [← List.mem_map, hstages]
    decide
  have hconditions := hseen _ h hmem
  exact ⟨g, log, hg, hrun, hstages, h, hmem, hconditions .isolation (by decide), hconditions .splitting (by decide),
    hconditions .freshStart (by decide), hconditions .erasure (by decide)⟩

end ContextFree

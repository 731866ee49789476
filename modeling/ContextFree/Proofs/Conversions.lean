import ContextFree.Proofs.Attainability
import ContextFree.Proofs.EpsilonErasure
import ContextFree.Proofs.Pruning
import ContextFree.Proofs.RuleSplitting
import ContextFree.Proofs.TerminalIsolation
import ContextFree.Proofs.UnitChains

/-!
# Conversions

Every stage of a conversion succeeds on every consistent grammar, keeps the language and establishes its
condition; it also keeps the conditions of the stages before it. Hence a conversion keeps the language, ends in
normal form unless its observer stops it, and fails for no other reason.
-/

namespace ContextFree

namespace Stage

/-- The condition that a stage establishes. -/
def Condition : Stage → Grammar → Prop
  | isolation => Grammar.TerminalsAlone
  | splitting => Grammar.RulesShort
  | freshStart => Grammar.StartUnused
  | erasure => Grammar.EpsilonAtStart
  | unitCollapse => Grammar.UnitFree
  | pruning => Grammar.NothingDead

/-- The stages that come before a stage in a conversion. -/
def before (stage : Stage) : List Stage :=
  all.takeWhile (· != stage)

/-- The stages of a conversion up to a stage, the stage included. -/
def upTo (stage : Stage) : List Stage :=
  stage.before ++ [stage]

lemma eq_before {done rest : List Stage} {stage : Stage} (h : all = done ++ stage :: rest) :
    done = stage.before := by
  have hnodup : (done ++ stage :: rest).Nodup := by
    rw [← h]
    decide
  have hne : ∀ s ∈ done, (s != stage) = true := by
    intro s hs
    rw [bne_iff_ne]
    rintro rfl
    exact (List.nodup_append'.mp hnodup).2.2 hs List.mem_cons_self
  rw [before, h, List.takeWhile_append_of_pos hne, List.takeWhile_cons_of_neg (by simp), List.append_nil]

end Stage

namespace Grammar

variable {g g' : Grammar}

/-- What a stage makes of a grammar. -/
structure StageOutcome (stage : Stage) (g g' : Grammar) : Prop where
  consistent : g'.Consistent
  generates_iff : ∀ w, g'.Generates w ↔ g.Generates w
  condition : stage.Condition g'
  keeps : (∀ s ∈ stage.before, s.Condition g) → ∀ s ∈ stage.before, s.Condition g'

lemma StageOutcome.condition_upTo {stage : Stage} (h : StageOutcome stage g g')
    (hconditions : ∀ s ∈ stage.before, s.Condition g) : ∀ s ∈ stage.upTo, s.Condition g' := by
  intro s hs
  rcases List.mem_append.mp hs with hs | hs
  · exact h.keeps hconditions s hs
  · rw [List.mem_singleton.mp hs]
    exact h.condition

theorem Consistent.succeeds_stage (hg : g.Consistent) (stage : Stage) :
    Succeeds stage.edit g fun _ g' => StageOutcome stage g g' := by
  cases stage with
  | isolation =>
    refine hg.succeeds_isolateTerminals.mono ?_
    rintro _ g' ⟨hg', hstart, helab, hnone⟩
    refine ⟨hg', helab.generates_iff hg hstart, hg'.terminalsAlone hnone, ?_⟩
    simp [Stage.before, Stage.all]
  | splitting =>
    refine hg.succeeds_splitRules.mono ?_
    rintro _ g' ⟨hg', hstart, helab, halone, hnone⟩
    refine ⟨hg', helab.generates_iff hg hstart, rulesShort hnone, ?_⟩
    simpa [Stage.before, Stage.all, Stage.Condition] using halone
  | freshStart =>
    refine hg.succeeds_freshenStart.mono ?_
    rintro _ g' ⟨hg', hround⟩
    refine ⟨hg', hround.generates_iff, hround.startUnused, ?_⟩
    simpa [Stage.before, Stage.all] using fun halone hshort =>
      ⟨hround.terminalsAlone halone, hround.rulesShort hshort⟩
  | erasure =>
    refine hg.succeeds_eraseEpsilons.mono ?_
    rintro _ g' ⟨hg', herased, hnone⟩
    refine ⟨hg', herased.generates_iff, epsilonAtStart hnone, ?_⟩
    simpa [Stage.before, Stage.all] using fun halone hshort hstart =>
      ⟨herased.terminalsAlone halone, herased.rulesShort hshort, herased.startUnused hstart⟩
  | unitCollapse =>
    refine hg.succeeds_collapseUnits.mono ?_
    rintro _ g' ⟨hg', hcollapsed⟩
    refine ⟨hg', hcollapsed.generates_iff hg, hcollapsed.unitFree hg, ?_⟩
    simpa [Stage.before, Stage.all] using fun halone hshort hstart hepsilon =>
      ⟨hcollapsed.terminalsAlone halone, hcollapsed.rulesShort hshort, hcollapsed.startUnused hstart,
        hcollapsed.epsilonAtStart hg hstart hepsilon⟩
  | pruning =>
    refine hg.succeeds_prune.mono ?_
    rintro _ g' ⟨hg', hprunes, hnothing⟩
    refine ⟨hg', hprunes.generates_iff hg', hnothing, ?_⟩
    simpa [Stage.before, Stage.all] using fun halone hshort hstart hepsilon hunit =>
      ⟨hprunes.terminalsAlone halone, hprunes.rulesShort hshort, hprunes.startUnused hstart,
        hprunes.epsilonAtStart hepsilon, hprunes.unitFree hunit⟩

end Grammar

/-! ### Whole conversions -/

variable {g : Grammar}

lemma Attainable.exists_stage (hg : Attainable g) (stage : Stage) :
    ∃ g', stage.edit g = .ok () g' ∧ Attainable g' ∧ stage.Condition g' := by
  obtain ⟨_, g', hrun, houtcome⟩ := hg.consistent.succeeds_stage stage
  have hg' : Attainable (stateAfter stage.edit g) := .becomes hg (.stage stage g)
  rw [stateAfter_of_ok hrun] at hg'
  exact ⟨g', hrun, hg', houtcome.condition⟩

lemma Attainable.exists_stages (hg : Attainable g) (stages : List Stage) :
    ∃ g', stages.forM Stage.edit g = .ok () g' ∧ Attainable g' := by
  induction stages generalizing g with
  | nil => exact ⟨g, rfl, hg⟩
  | cons stage stages ih =>
    obtain ⟨g₁, hrun₁, hg₁, -⟩ := hg.exists_stage stage
    obtain ⟨g₂, hrun₂, hg₂⟩ := ih hg₁
    exact ⟨g₂, (bind_of_ok hrun₁).trans hrun₂, hg₂⟩

variable {ω : Type} {observer : Observer ω}

/-- A stage and what the observer does after it. -/
def observedStage (observer : Observer ω) (stage : Stage) : Observed ω Unit := do
  Observed.ofEdit stage.edit
  EStateM.adaptExcept (.stopped stage) (observer stage)

lemma normalize_eq (observer : Observer ω) :
    Grammar.normalize observer = Stage.all.forM (observedStage observer) :=
  rfl

lemma observedStage_eq {stage : Stage} {s : Grammar × ω} (h : stage.edit s.1 = .ok () g) :
    observedStage observer stage s = EStateM.adaptExcept (.stopped stage) (observer stage) (g, s.2) := by
  have hedit : Observed.ofEdit stage.edit s = .ok () (g, s.2) := by
    simp only [Observed.ofEdit, h]
  exact bind_of_ok hedit

lemma succeeds_observedStage {stage : Stage} {post : Grammar → Prop} {records : ω} (hidle : observer.Idle)
    (hpatient : observer.Patient) (h : Succeeds stage.edit g fun _ g' => post g') :
    Succeeds (observedStage observer stage) (g, records) fun _ s => post s.1 := by
  obtain ⟨_, g', hrun, hpost⟩ := h
  obtain ⟨s, hs⟩ := hpatient stage (g', records)
  have hsame := hidle stage g' records
  rw [stateAfter_of_ok hs] at hsame
  refine ⟨(), s, ?_, ?_⟩
  · rw [observedStage_eq hrun]
    simp only [EStateM.adaptExcept, hs]
  · change post s.1
    rwa [hsame]

/-- With an observer that neither edits nor stops, a conversion establishes all conditions. -/
lemma Grammar.Consistent.succeeds_normalize (hg : g.Consistent) (hidle : observer.Idle)
    (hpatient : observer.Patient) (records : ω) :
    Succeeds (Grammar.normalize observer) (g, records) fun _ s => s.1.Consistent ∧
      ∀ stage : Stage, stage.Condition s.1 := by
  rw [normalize_eq]
  refine (Succeeds.forM (fun done (s : Grammar × ω) => s.1.Consistent ∧ ∀ stage ∈ done, stage.Condition s.1)
    ⟨hg, by simp⟩ ?_).mono ?_
  · rintro done stage rest ⟨h, records⟩ hdone ⟨hh, hconditions⟩
    have hbefore := Stage.eq_before hdone
    subst hbefore
    refine (succeeds_observedStage hidle hpatient (hh.succeeds_stage stage)).mono ?_
    rintro _ s hs
    exact ⟨hs.consistent, hs.condition_upTo hconditions⟩
  · rintro _ s ⟨hs, hconditions⟩
    exact ⟨hs, fun stage => hconditions stage (by cases stage <;> decide)⟩

lemma stopped_of_error {stages : List Stage} {s s' : Grammar × ω} {e : Error} (hs : Attainable s.1)
    (hediting : observer.Editing) (herror : stages.forM (observedStage observer) s = .error e s') :
    ∃ stage e' s₀, e = .stopped stage e' ∧ Attainable s₀.1 ∧ observer stage s₀ = .error e' s' := by
  induction stages generalizing s with
  | nil => cases herror
  | cons stage stages ih =>
    obtain ⟨g₁, hrun, hg₁, -⟩ := hs.exists_stage stage
    have hstage : observedStage observer stage s = _ := observedStage_eq hrun
    cases hobserver : observer stage (g₁, s.2) with
    | error e' s₂ =>
      simp only [EStateM.adaptExcept, hobserver] at hstage
      have hstop := (bind_of_error hstage).symm.trans herror
      cases hstop
      exact ⟨stage, e', (g₁, s.2), rfl, hg₁, hobserver⟩
    | ok a s₂ =>
      simp only [EStateM.adaptExcept, hobserver] at hstage
      have hs₂ := hediting stage g₁ s.2
      rw [stateAfter_of_ok hobserver] at hs₂
      exact ih (.becomes hg₁ hs₂) ((bind_of_ok hstage).symm.trans herror)

/-- A conversion keeps the language. The observer may stop it at any stage; what is left then still generates
what the grammar did. -/
theorem normalize_keeps_language (hg : Attainable g) (hidle : observer.Idle) (records : ω) :
    (∀ w, (stateAfter (Grammar.normalize observer) (g, records)).1.Generates w ↔ g.Generates w) ∧
      (observer.Patient → ∃ s, Grammar.normalize observer (g, records) = .ok () s) := by
  have hstage : ∀ stage : Stage,
      Keeps (fun h => h.Consistent ∧ ∀ w, h.Generates w ↔ g.Generates w) stage.edit := by
    rintro stage h ⟨hh, hlanguage⟩
    obtain ⟨_, h', hrun, houtcome⟩ := hh.succeeds_stage stage
    rw [stateAfter_of_ok hrun]
    exact ⟨houtcome.consistent, fun w => (houtcome.generates_iff w).trans (hlanguage w)⟩
  constructor
  · refine (Grammar.keeps_normalize hstage ?_ (g, records) ⟨hg.consistent, fun w => Iff.rfl⟩).2
    rintro stage ⟨h, records⟩ hh
    rwa [hidle stage h records]
  · intro hpatient
    obtain ⟨_, s, hrun, -⟩ := hg.consistent.succeeds_normalize hidle hpatient records
    exact ⟨s, hrun⟩

/-- The rules `S -> a S b` and `S -> epsilon`. -/
def nestedPairs : List Rule :=
  [⟨"S", ["a", "S", "b"]⟩, ⟨"S", []⟩]

lemma exists_nestedPairs : ∃ g, Grammar.ofParts "S" ["a", "b"] [] nestedPairs .standard = .ok g ∧
    g.contents = ⟨"S", ["a", "b"], ["S"], nestedPairs, .standard⟩ :=
  Grammar.ofParts_eq_ok _ _ _ _ _ (by decide) (by decide) (by decide) (by decide) (by decide)

theorem normal_form_of_nestedPairs_generates_pair :
    ∃ g, Grammar.ofParts "S" ["a", "b"] [] nestedPairs .standard = .ok g ∧
      (stateAfter (Grammar.normalize Observer.idle) (g, ())).1.Generates ["a", "b"] := by
  obtain ⟨g, hg, hcontents⟩ := exists_nestedPairs
  have hstart : g.start = "S" := congrArg Grammar.Contents.start hcontents
  have hterminals : g.terminals = ["a", "b"] := congrArg Grammar.Contents.terminals hcontents
  have hrules : g.rules = nestedPairs := congrArg Grammar.Contents.rules hcontents
  have houter : Derives nestedPairs ["S"] ["a", "S", "b"] := Derives.of_mem List.mem_cons_self
  have hinner : Derives nestedPairs ["S"] [] := Derives.of_mem (List.mem_cons_of_mem _ List.mem_cons_self)
  have hpair : g.Generates ["a", "b"] := by
    refine ⟨by simp [hterminals], ?_⟩
    rw [hstart, hrules]
    exact houter.trans (((Derives.refl _ ["a"]).append hinner).append (Derives.refl _ ["b"]))
  refine ⟨g, hg, ((normalize_keeps_language (.ofParts hg) ?_ ()).1 _).mpr hpair⟩
  exact fun _ _ _ => rfl

/-- A conversion that is not stopped ends in normal form, with the start symbol on no right side and without
symbols that are of no use. -/
theorem normalize_reaches_normal_form (hg : Attainable g) (hidle : observer.Idle) (hpatient : observer.Patient)
    (records : ω) :
    ∃ g' records', Grammar.normalize observer (g, records) = .ok () (g', records') ∧
      g'.checkNormal = .ok () ∧ (∀ r ∈ g'.rules, g'.start ∉ r.right) ∧
      g'.unreachable = [] ∧ g'.unusedTerminals = [] ∧
      ∀ n ∈ g'.nonterminals, n ≠ g'.start → ∃ r ∈ g'.rules, r.left = n := by
  obtain ⟨_, ⟨g', records'⟩, hrun, hg', hconditions⟩ :=
    hg.consistent.succeeds_normalize hidle hpatient records
  have halone : g'.TerminalsAlone := hconditions .isolation
  have hshort : g'.RulesShort := hconditions .splitting
  have hstart : g'.StartUnused := hconditions .freshStart
  have hepsilon : g'.EpsilonAtStart := hconditions .erasure
  have hunit : g'.UnitFree := hconditions .unitCollapse
  have hnothing : g'.NothingDead := hconditions .pruning
  exact ⟨g', records', hrun, hg'.checkNormal_eq_ok halone hshort hstart hepsilon hunit, hstart,
    hnothing.unreachable_eq_nil, hnothing.unusedTerminals_eq_nil, hnothing.exists_rule⟩

theorem normal_form_of_nestedPairs :
    ∃ g g', Grammar.ofParts "S" ["a", "b"] [] nestedPairs .standard = .ok g ∧
      Grammar.normalize Observer.idle (g, ()) = .ok () (g', ()) ∧ g'.checkNormal = .ok () ∧
      g'.unreachable = [] ∧ g'.unusedTerminals = [] := by
  obtain ⟨g, hg, -⟩ := exists_nestedPairs
  obtain ⟨g', _, hrun, hnormal, -, hreached, hused, -⟩ :=
    normalize_reaches_normal_form (.ofParts hg) (fun _ _ _ => rfl) (fun _ s => ⟨s, rfl⟩) ()
  exact ⟨g, g', hg, hrun, hnormal, hreached, hused⟩

/-- No stage ever fails, whatever came before it, and each ends with its condition established; a conversion
ends in an error only if its observer does, and then in that error. -/
theorem only_observers_fail (hg : Attainable g) :
    (∀ stages : List Stage, ∀ stage : Stage, ∃ g₁ g₂, stages.forM Stage.edit g = .ok () g₁ ∧
      stage.edit g₁ = .ok () g₂ ∧ stage.Condition g₂) ∧
    ∀ {ω : Type} (observer : Observer ω) (records : ω), observer.Editing →
      ∀ e s, Grammar.normalize observer (g, records) = .error e s →
        ∃ stage e' s₀, e = .stopped stage e' ∧ Attainable s₀.1 ∧ observer stage s₀ = .error e' s := by
  constructor
  · intro stages stage
    obtain ⟨g₁, hrun₁, hg₁⟩ := hg.exists_stages stages
    obtain ⟨g₂, hrun₂, -, hcondition⟩ := hg₁.exists_stage stage
    exact ⟨g₁, g₂, hrun₁, hrun₂, hcondition⟩
  · intro ω observer records hediting e s herror
    exact stopped_of_error (s := (g, records)) hg hediting herror

/-- The observer that runs an operation after every stage. -/
def Observer.ofOperation (op : Operation) : Observer ω :=
  fun _ => discard (Observed.ofEdit op.edit)

lemma Observer.ofOperation_of_error {op : Operation} {g' : Grammar} {e : Error} (h : op.edit g = .error e g')
    (stage : Stage) (records : ω) : Observer.ofOperation op stage (g, records) = .error e (g', records) := by
  change EStateM.map _ (Observed.ofEdit op.edit) (g, records) = _
  simp only [EStateM.map, Observed.ofEdit, h]

lemma Observer.editing_ofOperation (op : Operation) : (Observer.ofOperation (ω := ω) op).Editing := by
  intro stage g records
  have hstate : stateAfter (Observer.ofOperation op stage) (g, records) = (stateAfter op.edit g, records) := by
    change stateAfter (EStateM.map _ (Observed.ofEdit op.edit)) (g, records) = _
    cases h : op.edit g <;> simp only [stateAfter, EStateM.map, Observed.ofEdit, h]
  rw [hstate]
  exact .operation op (.refl g)

lemma exists_error_insertTerminals (g : Grammar) (t : Symbol) :
    ∃ e g', (Operation.insertTerminals [t, ""]).edit g = .error e g' := by
  cases h : Grammar.insertTerminal t g with
  | error e g' => exact ⟨e, g', bind_of_error (bind_of_error h)⟩
  | ok a g' => exact ⟨_, g', bind_of_error ((bind_of_ok h).trans (bind_of_error rfl))⟩

/-- An observer that inserts `c` and asks for an empty terminal stops the conversion after the first stage. -/
theorem conversion_stopped_by_refusal :
    ∃ g, Grammar.ofParts "S" ["a", "b"] [] nestedPairs .standard = .ok g ∧
      (∃ g₁ g₂, [Stage.pruning, .erasure, .erasure].forM Stage.edit g = .ok () g₁ ∧
        Stage.splitting.edit g₁ = .ok () g₂ ∧ g₂.RulesShort) ∧
      ∃ e s, Grammar.normalize (.ofOperation (.insertTerminals ["c", ""])) (g, ()) = .error e s ∧
        ∃ stage e' s₀, e = .stopped stage e' ∧
          Observer.ofOperation (.insertTerminals ["c", ""]) stage s₀ = .error e' s := by
  obtain ⟨g, hg, -⟩ := exists_nestedPairs
  have hattainable : Attainable g := .ofParts hg
  obtain ⟨hstages, hconversions⟩ := only_observers_fail hattainable
  obtain ⟨g₁, hrun, -⟩ := hattainable.exists_stage .isolation
  obtain ⟨e, g₂, hrefusal⟩ := exists_error_insertTerminals g₁ "c"
  have hobserver := Observer.ofOperation_of_error hrefusal .isolation ()
  have hstage : observedStage (.ofOperation (.insertTerminals ["c", ""])) .isolation (g, ()) = _ :=
    observedStage_eq hrun
  simp only [EStateM.adaptExcept, hobserver] at hstage
  have herror : Grammar.normalize (.ofOperation (.insertTerminals ["c", ""])) (g, ()) = _ :=
    bind_of_error hstage
  obtain ⟨stage, e', s₀, he, -, hs₀⟩ := hconversions _ () (Observer.editing_ofOperation _) _ _ herror
  exact ⟨g, hg, hstages _ _, _, _, herror, stage, e', s₀, he, hs₀⟩

end ContextFree

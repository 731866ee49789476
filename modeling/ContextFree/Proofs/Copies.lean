import ContextFree.Listing
import ContextFree.Proofs.Conversions
import ContextFree.Proofs.PlainLists

/-!
# Copies

A copy is made by filing the rules anew, one by one, beside the symbols of the original. Since the indexes of a
consistent grammar are determined by its lists, what comes out is the original, whatever happened to it before. So
a caller who goes on with a copy instead, at any point and as often as they like, sees what they would have seen
without copying.
-/

namespace ContextFree

variable {ω : Type} {g : Grammar}

lemma Grammar.Consistent.refiled_eq (hg : g.Consistent) : g.refiled = .ok g := by
  obtain ⟨_, copy, hrun, hcopy, hcontents⟩ :=
    hg.cleared.succeeds_insertRules hg.rules_nodup hg.left_mem hg.right_mem (by simp)
  obtain ⟨hstart, hterminals, hnonterminals, hrules, hnamer⟩ := Grammar.Contents.mk.inj hcontents
  have heq : copy = g := hcopy.ext hg hstart hterminals hnonterminals hrules hnamer
  unfold Grammar.refiled
  rw [hrun, heq]

/-- Whatever a writer does to the grammar, it does by operations and conversions. -/
def Writer.Editing (write : Writer ω) : Prop :=
  ∀ line g records, Becomes g (stateAfter (write line) (g, records)).1

/-- Everything that may be done with a grammar. Observers and writers change it by operations and conversions. -/
inductive Call (ω : Type) where
  | request (request : Request)
  | hasSymbol (s : Symbol)
  | reachable
  | unreachable
  | stats
  | checkNormal
  | isNormal
  | listing
  | stage (stage : Stage)
  | normalize (observer : Observer ω) (editing : observer.Editing)
  /-- Go on with the normal form. -/
  | normalized (observer : Observer ω) (editing : observer.Editing)
  | writeRules (write : Writer ω) (editing : write.Editing)
  | writeGrammar (write : Writer ω) (editing : write.Editing)

inductive Reply where
  | answer (answer : Answer)
  | stats (stats : Grammar.Stats)
  | text (text : String)
deriving DecidableEq, Repr

/-- Go on with the normal form of the grammar, if it can be had. -/
def takeNormalForm (observer : Observer ω) : Observed ω Unit := fun (g, records) =>
  match g.normalized observer records with
  | (.ok g', records') => .ok () (g', records')
  | (.error e, records') => .error e (g, records')

/-- Go on with a copy of the grammar, if it can be had. -/
def takeCopy : Observed ω Unit := fun (g, records) =>
  match g.refiled with
  | .ok copy => .ok () (copy, records)
  | .error e => .error e (g, records)

namespace Call

def run : Call ω → Observed ω Reply
  | request asked => return .answer (← Observed.ofEdit asked.edit)
  | hasSymbol s => return .answer (.truth ((← Observed.grammar).hasSymbol s))
  | reachable => return .answer (.symbols (← Observed.grammar).reachable)
  | unreachable => return .answer (.symbols (← Observed.grammar).unreachable)
  | stats => return .stats (← Observed.grammar).stats
  | checkNormal => do Observed.ofEdit (Edit.query Grammar.checkNormal); return .answer .done
  | isNormal => return .answer (.truth (← Observed.grammar).isNormal)
  | listing => return .text (← Observed.ofEdit (Edit.query Grammar.listing))
  | stage step => do Observed.ofEdit step.edit; return .answer .done
  | normalize observer _ => do Grammar.normalize observer; return .answer .done
  | normalized observer _ => do takeNormalForm observer; return .answer .done
  | writeRules write _ => do Grammar.writeRules write; return .answer .done
  | writeGrammar write _ => do Grammar.writeGrammar write; return .answer .done

/-- The call, made to a copy of the grammar if so desired. -/
def runOn (copied : Bool) (call : Call ω) : Observed ω Reply :=
  if copied then do takeCopy; call.run else call.run

end Call

/-- What a caller gets to see: the outcome of every run, and the contents and the caller's records after it. -/
def reports : List (Observed ω Reply) → Grammar × ω → List (Except Error Reply × Grammar.Contents × ω)
  | [], _ => []
  | run :: later, s =>
    match run s with
    | .ok reply s' => (.ok reply, s'.1.contents, s'.2) :: reports later s'
    | .error e s' => (.error e, s'.1.contents, s'.2) :: reports later s'

lemma takeCopy_eq (hg : g.Consistent) (records : ω) : takeCopy (g, records) = .ok () (g, records) := by
  simp only [takeCopy, hg.refiled_eq]

lemma Call.runOn_eq (hg : g.Consistent) (copied : Bool) (call : Call ω) (records : ω) :
    call.runOn copied (g, records) = call.run (g, records) := by
  cases copied with
  | false => rfl
  | true => exact bind_of_ok (takeCopy_eq hg records)

/-- What a conversion in place has come to: the grammar or an error, and the records of the observer. -/
def conversionOutcome : EStateM.Result Error (Grammar × ω) Unit → Except Error Grammar × ω
  | .ok _ (g, records) => (.ok g, records)
  | .error e (_, records) => (.error e, records)

lemma Grammar.Consistent.normalized_eq (hg : g.Consistent) (observer : Observer ω) (records : ω) :
    g.normalized observer records = conversionOutcome (Grammar.normalize observer (g, records)) := by
  unfold Grammar.normalized
  cases hrun : Grammar.normalize observer (g, records) with
  | ok a s => simp only [hg.refiled_eq, hrun, conversionOutcome]
  | error e s => simp only [hg.refiled_eq, hrun, conversionOutcome]

/-! ### What calls keep -/

namespace Call

lemma keeps_grammar : Keeps (fun s : Grammar × ω => s.1.Consistent) Observed.grammar :=
  Keeps.bind Keeps.get fun _ => Keeps.pure _

lemma keeps_query {α : Type} (question : Grammar → Except Error α) :
    Keeps (fun s : Grammar × ω => s.1.Consistent) (Observed.ofEdit (Edit.query question)) :=
  Keeps.ofEdit (Keeps.query question)

lemma keeps_write {write : Writer ω} (hwrite : write.Editing) (line : String) :
    Keeps (fun s : Grammar × ω => s.1.Consistent) (write line) :=
  fun s hs => Grammar.Consistent.becomes hs (hwrite line s.1 s.2)

lemma keeps_writeRules {write : Writer ω} (hwrite : write.Editing) :
    Keeps (fun s : Grammar × ω => s.1.Consistent) (Grammar.writeRules write) := by
  apply Keeps.bind keeps_grammar
  intro g
  apply Keeps.forM
  intro r _
  exact Keeps.bind (keeps_query _) fun line => keeps_write hwrite line

lemma keeps_writeGrammar {write : Writer ω} (hwrite : write.Editing) :
    Keeps (fun s : Grammar × ω => s.1.Consistent) (Grammar.writeGrammar write) := by
  apply Keeps.bind keeps_grammar
  intro g
  exact Keeps.bind (keeps_write hwrite _) fun _ => keeps_writeRules hwrite

lemma keeps_normalize {observer : Observer ω} (hobserver : observer.Editing) :
    Keeps (fun s : Grammar × ω => s.1.Consistent) (Grammar.normalize observer) :=
  fun s hs => Grammar.Consistent.becomes hs (.normalize observer s.2 hobserver (.refl s.1))

lemma keeps_takeNormalForm {observer : Observer ω} (hobserver : observer.Editing) :
    Keeps (fun s : Grammar × ω => s.1.Consistent) (takeNormalForm observer) := by
  rintro ⟨g, records⟩ hg
  have hafter := keeps_normalize hobserver (g, records) hg
  have hnormal := Grammar.Consistent.normalized_eq hg observer records
  cases hrun : Grammar.normalize observer (g, records) with
  | ok a s =>
    rw [stateAfter_of_ok hrun] at hafter
    have htake : takeNormalForm observer (g, records) = .ok () s := by
      simp only [takeNormalForm, hnormal, hrun, conversionOutcome]
    rwa [stateAfter_of_ok htake]
  | error e s =>
    have htake : takeNormalForm observer (g, records) = .error e (g, s.2) := by
      simp only [takeNormalForm, hnormal, hrun, conversionOutcome]
    rwa [stateAfter_of_error htake]

lemma keeps_consistent (call : Call ω) : Keeps (fun s : Grammar × ω => s.1.Consistent) call.run := by
  cases call with
  | request request =>
    exact Keeps.bind (Keeps.ofEdit (Grammar.Mirrors.request request).keeps) fun _ => Keeps.pure _
  | hasSymbol s => exact Keeps.bind keeps_grammar fun _ => Keeps.pure _
  | reachable => exact Keeps.bind keeps_grammar fun _ => Keeps.pure _
  | unreachable => exact Keeps.bind keeps_grammar fun _ => Keeps.pure _
  | stats => exact Keeps.bind keeps_grammar fun _ => Keeps.pure _
  | checkNormal => exact Keeps.bind (keeps_query _) fun _ => Keeps.pure _
  | isNormal => exact Keeps.bind keeps_grammar fun _ => Keeps.pure _
  | listing => exact Keeps.bind (keeps_query _) fun _ => Keeps.pure _
  | stage stage => exact Keeps.bind (Keeps.ofEdit (Grammar.Consistent.keeps_stage stage)) fun _ => Keeps.pure _
  | normalize observer editing => exact Keeps.bind (keeps_normalize editing) fun _ => Keeps.pure _
  | normalized observer editing => exact Keeps.bind (keeps_takeNormalForm editing) fun _ => Keeps.pure _
  | writeRules write editing => exact Keeps.bind (keeps_writeRules editing) fun _ => Keeps.pure _
  | writeGrammar write editing => exact Keeps.bind (keeps_writeGrammar editing) fun _ => Keeps.pure _

end Call

/-- Copies taken before some of the calls do not show in any report. -/
lemma Grammar.Consistent.reports_eq (hg : g.Consistent) (calls : List (Bool × Call ω)) (records : ω) :
    reports (calls.map fun call => call.2.runOn call.1) (g, records) =
      reports (calls.map fun call => call.2.run) (g, records) := by
  induction calls generalizing g records with
  | nil => rfl
  | cons call later ih =>
    have hkept := call.2.keeps_consistent (g, records) hg
    rw [List.map_cons, List.map_cons, reports, reports, call.2.runOn_eq hg]
    cases hrun : call.2.run (g, records) with
    | ok reply s =>
      rw [stateAfter_of_ok hrun] at hkept
      exact congrArg _ (ih hkept s.2)
    | error e s =>
      rw [stateAfter_of_error hrun] at hkept
      exact congrArg _ (ih hkept s.2)

/-- The copy of an attainable grammar can always be had and is the grammar itself, with its namer and its indexes.
Calls have the same outcomes and leave the same contents whether they are made to the grammar or to copies of it,
and the normal form of a copy is what a conversion makes of the grammar in place, for any observer. -/
theorem copies_behave_like_the_original (hg : Attainable g) :
    g.refiled = .ok g ∧
    (∀ (ω : Type) (calls : List (Bool × Call ω)) (records : ω),
      reports (calls.map fun call => call.2.runOn call.1) (g, records) =
        reports (calls.map fun call => call.2.run) (g, records)) ∧
    ∀ (ω : Type) (observer : Observer ω) (records : ω),
      g.normalized observer records = conversionOutcome (Grammar.normalize observer (g, records)) :=
  ⟨hg.consistent.refiled_eq, fun _ => hg.consistent.reports_eq, fun _ => hg.consistent.normalized_eq⟩

/-- The grammar that is copied has lost the rule `S -> epsilon`, and the first call puts it back. -/
theorem copy_of_shortened_nestedPairs :
    ∃ g h h' : Grammar, Grammar.ofParts "S" ["a", "b"] [] nestedPairs .standard = .ok g ∧
      stateAfter (Operation.eraseRule ⟨"S", []⟩).edit g = h ∧ h.refiled = .ok h ∧
      reports [(Call.request (.insertRule ⟨"S", []⟩)).runOn true, Call.stats.runOn true] (h, ()) =
        reports [(Call.request (.insertRule ⟨"S", []⟩)).run, Call.stats.run] (h, ()) ∧
      h.normalized Observer.idle () = (.ok h', ()) ∧
      Grammar.normalize Observer.idle (h, ()) = .ok () (h', ()) := by
  obtain ⟨g, hg, -⟩ := exists_nestedPairs
  have hattainable : Attainable (stateAfter (Operation.eraseRule ⟨"S", []⟩).edit g) :=
    .becomes (.ofParts hg) (.operation _ (.refl g))
  obtain ⟨hcopy, hreports, hnormalized⟩ := copies_behave_like_the_original hattainable
  have hidle : (Observer.idle : Observer Unit).Idle := fun _ _ _ => rfl
  have hpatient : (Observer.idle : Observer Unit).Patient := fun _ s => ⟨s, rfl⟩
  obtain ⟨_, ⟨h', _⟩, hrun, -⟩ := hattainable.consistent.succeeds_normalize hidle hpatient ()
  refine ⟨g, _, h', hg, rfl, hcopy, ?_, ?_, hrun⟩
  · exact hreports Unit [(true, .request (.insertRule ⟨"S", []⟩)), (true, .stats)] ()
  · rw [hnormalized, hrun]
    rfl

end ContextFree

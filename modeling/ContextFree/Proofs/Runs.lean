import ContextFree.Normal.Conversion
import Mathlib.Tactic

/-!
# Runs

Two ways to speak of a run. `Keeps P run` says that the run keeps a property of the state however it ends, and
`Succeeds run s post` that from one state it ends without an error and with a given outcome. Both are proved
along the structure of the run, by a lemma for every way to put runs together.
-/

namespace ContextFree

variable {σ α β : Type}

/-- The state after a run, which may have ended in an error. -/
def stateAfter (run : EStateM Error σ α) (s : σ) : σ :=
  match run s with
  | .ok _ s' => s'
  | .error _ s' => s'

/-- The run keeps the property, also when it ends in an error. -/
def Keeps (P : σ → Prop) (run : EStateM Error σ α) : Prop :=
  ∀ s, P s → P (stateAfter run s)

/-- The run ends without an error, in a result and a state as described. -/
def Succeeds (run : EStateM Error σ α) (s : σ) (post : α → σ → Prop) : Prop :=
  ∃ a s', run s = .ok a s' ∧ post a s'

lemma stateAfter_of_ok {run : EStateM Error σ α} {s s' : σ} {a : α} (h : run s = .ok a s') :
    stateAfter run s = s' := by
  simp [stateAfter, h]

lemma stateAfter_of_error {run : EStateM Error σ α} {s s' : σ} {e : Error} (h : run s = .error e s') :
    stateAfter run s = s' := by
  simp [stateAfter, h]

lemma guarded_eq_ok {refusal : Grammar → Option Error} {update : Grammar → Grammar} {g : Grammar}
    (h : refusal g = none) : Edit.guarded refusal update g = .ok () (update g) := by
  simp only [Edit.guarded, h]

lemma query_eq_ok {question : Grammar → Except Error α} {g : Grammar} {a : α} (h : question g = .ok a) :
    Edit.query question g = .ok a g := by
  simp only [Edit.query, h]

section Sequencing

variable {run : EStateM Error σ α} {next : α → EStateM Error σ β} {s s' : σ} {a : α} {e : Error}

lemma bind_of_ok (h : run s = .ok a s') : (run >>= next) s = next a s' := by
  change EStateM.bind run next s = _
  simp only [EStateM.bind, h]

lemma bind_of_error (h : run s = .error e s') : (run >>= next) s = .error e s' := by
  change EStateM.bind run next s = _
  simp only [EStateM.bind, h]

variable {f : α → EStateM Error σ PUnit} {x : α} {u : PUnit}

lemma forM_cons_of_ok (xs : List α) (h : f x s = .ok u s') : (x :: xs).forM f s = xs.forM f s' :=
  bind_of_ok h

lemma forM_cons_of_error (xs : List α) (h : f x s = .error e s') : (x :: xs).forM f s = .error e s' :=
  bind_of_error h

end Sequencing

namespace Keeps

variable {P : σ → Prop} {run : EStateM Error σ α}

lemma pure (a : α) : Keeps P (Pure.pure a : EStateM Error σ α) :=
  fun _ hs => hs

lemma get : Keeps P (MonadState.get : EStateM Error σ σ) :=
  fun _ hs => hs

lemma bind {next : α → EStateM Error σ β} (hrun : Keeps P run) (hnext : ∀ a, Keeps P (next a)) :
    Keeps P (run >>= next) := by
  intro s hs
  have hs' := hrun s hs
  cases h : run s with
  | ok a s' =>
    rw [stateAfter_of_ok h] at hs'
    have := hnext a s' hs'
    unfold stateAfter at this ⊢
    rwa [bind_of_ok h]
  | error e s' =>
    rw [stateAfter_of_error h] at hs'
    rwa [stateAfter_of_error (bind_of_error h)]

lemma map (f : α → β) (hrun : Keeps P run) : Keeps P (f <$> run) := by
  intro s hs
  have hs' := hrun s hs
  change P (stateAfter (EStateM.map f run) s)
  unfold stateAfter EStateM.map at *
  cases h : run s <;> simp_all

lemma adaptExcept (f : Error → Error) (hrun : Keeps P run) : Keeps P (EStateM.adaptExcept f run) := by
  intro s hs
  have hs' := hrun s hs
  unfold stateAfter EStateM.adaptExcept at *
  cases h : run s <;> simp_all

lemma forM {f : α → EStateM Error σ PUnit} {xs : List α} (h : ∀ x ∈ xs, Keeps P (f x)) :
    Keeps P (xs.forM f) := by
  induction xs with
  | nil => exact pure _
  | cons x xs ih =>
    apply bind (h x List.mem_cons_self)
    intro _
    exact ih fun y hy => h y (List.mem_cons_of_mem _ hy)

lemma guarded {P : Grammar → Prop} {refusal : Grammar → Option Error} {update : Grammar → Grammar}
    (h : ∀ g, P g → refusal g = none → P (update g)) : Keeps P (Edit.guarded refusal update) := by
  intro g hg
  unfold stateAfter Edit.guarded
  cases hr : refusal g with
  | none => exact h g hg hr
  | some e => exact hg

lemma query {P : Grammar → Prop} (question : Grammar → Except Error α) :
    Keeps P (Edit.query question) := by
  intro g hg
  unfold stateAfter Edit.query
  cases question g <;> exact hg

lemma exhaust {P : Grammar → Prop} {find : Grammar → Option α} {act : List α → α → Edit Unit}
    (h : ∀ past a, Keeps P (act past a)) (rounds : Nat) (past : List α) :
    Keeps P (Edit.exhaust find act rounds past) := by
  induction rounds generalizing past with
  | zero => exact pure _
  | succ rounds ih =>
    rw [Edit.exhaust]
    refine bind get ?_
    intro g
    cases find g with
    | none => exact pure _
    | some a => exact bind (h past a) fun _ => ih _

lemma ofEdit {ω : Type} {P : Grammar → Prop} {edit : Edit α} (h : Keeps P edit) :
    Keeps (fun s : Grammar × ω => P s.1) (Observed.ofEdit edit) := by
  rintro ⟨g, records⟩ hg
  have hg' := h g hg
  unfold stateAfter Observed.ofEdit at *
  cases he : edit g <;> simp_all

end Keeps

namespace Succeeds

variable {run : EStateM Error σ α} {s : σ} {post : α → σ → Prop}

lemma mono {post' : α → σ → Prop} (h : Succeeds run s post) (himp : ∀ a s', post a s' → post' a s') :
    Succeeds run s post' := by
  obtain ⟨a, s', hrun, hpost⟩ := h
  exact ⟨a, s', hrun, himp a s' hpost⟩

lemma and {post' : α → σ → Prop} (h : Succeeds run s post) (h' : Succeeds run s post') :
    Succeeds run s fun a s' => post a s' ∧ post' a s' := by
  obtain ⟨a, s', hrun, hpost⟩ := h
  obtain ⟨b, s'', hrun', hpost'⟩ := h'
  rw [hrun] at hrun'
  cases hrun'
  exact ⟨a, s', hrun, hpost, hpost'⟩

lemma pure {a : α} (h : post a s) : Succeeds (Pure.pure a) s post :=
  ⟨a, s, rfl, h⟩

lemma bind {next : α → EStateM Error σ β} {mid : α → σ → Prop} {post : β → σ → Prop}
    (hrun : Succeeds run s mid) (hnext : ∀ a s', mid a s' → Succeeds (next a) s' post) :
    Succeeds (run >>= next) s post := by
  obtain ⟨a, s', hok, hmid⟩ := hrun
  obtain ⟨b, s'', hok', hpost⟩ := hnext a s' hmid
  exact ⟨b, s'', (bind_of_ok hok).trans hok', hpost⟩

lemma bind_ok {next : α → EStateM Error σ β} {post : β → σ → Prop} {a : α} {s' : σ}
    (hrun : run s = .ok a s') (hnext : Succeeds (next a) s' post) : Succeeds (run >>= next) s post := by
  obtain ⟨b, s'', hok, hpost⟩ := hnext
  exact ⟨b, s'', (bind_of_ok hrun).trans hok, hpost⟩

lemma get_bind {next : σ → EStateM Error σ β} {post : β → σ → Prop} (h : Succeeds (next s) s post) :
    Succeeds (MonadState.get >>= next) s post :=
  h

lemma discard {post : Unit → σ → Prop} (h : Succeeds run s fun _ s' => post () s') :
    Succeeds (Functor.discard run) s post := by
  obtain ⟨a, s', hok, hpost⟩ := h
  refine ⟨(), s', ?_, hpost⟩
  change EStateM.map (Function.const α ()) run s = _
  simp only [EStateM.map, hok, Function.const]

lemma internal {edit : Edit α} {g : Grammar} {post : α → Grammar → Prop} (h : Succeeds edit g post) :
    Succeeds (Edit.internal edit) g post := by
  obtain ⟨a, g', hok, hpost⟩ := h
  refine ⟨a, g', ?_, hpost⟩
  unfold Edit.internal EStateM.adaptExcept
  simp only [hok]

lemma guarded {refusal : Grammar → Option Error} {update : Grammar → Grammar} {g : Grammar}
    {post : Unit → Grammar → Prop} (hrefusal : refusal g = none) (hpost : post () (update g)) :
    Succeeds (Edit.guarded refusal update) g post :=
  ⟨(), update g, guarded_eq_ok hrefusal, hpost⟩

/-- A loop over a list, with an invariant about the elements that had their turn. -/
lemma forM {f : α → EStateM Error σ PUnit} (inv : List α → σ → Prop) {xs : List α} (hinv : inv [] s)
    (hstep : ∀ done x rest s, xs = done ++ x :: rest → inv done s →
      Succeeds (f x) s fun _ s' => inv (done ++ [x]) s') :
    Succeeds (xs.forM f) s fun _ s' => inv xs s' := by
  have hrest : ∀ rest done s, xs = done ++ rest → inv done s →
      Succeeds (rest.forM f) s fun _ s' => inv xs s' := by
    intro rest
    induction rest with
    | nil =>
      intro done s hxs hdone
      rw [List.append_nil] at hxs
      exact pure (hxs ▸ hdone)
    | cons x rest ih =>
      intro done s hxs hdone
      apply bind (hstep done x rest s hxs hdone)
      intro _ s' hs'
      exact ih (done ++ [x]) s' (by simpa using hxs) hs'
  exact hrest xs [] s rfl hinv

/-- Edits to exhaustion, with an invariant about what was acted on and a number that every round makes
smaller. The bound on the rounds is never what ends them. -/
lemma exhaust {find : Grammar → Option α} {act : List α → α → Edit Unit}
    (inv : List α → Grammar → Prop) (size : List α → Grammar → Nat)
    (hstep : ∀ past a g, inv past g → find g = some a →
      Succeeds (act past a) g fun _ g' => inv (past ++ [a]) g' ∧ size (past ++ [a]) g' < size past g)
    {rounds : Nat} {past : List α} {g : Grammar} (hinv : inv past g) (hsize : size past g ≤ rounds) :
    Succeeds (Edit.exhaust find act rounds past) g fun past' g' => inv past' g' ∧ find g' = none := by
  induction rounds generalizing past g with
  | zero =>
    refine pure ⟨hinv, ?_⟩
    by_contra hfind
    obtain ⟨a, ha⟩ := Option.ne_none_iff_exists'.mp hfind
    obtain ⟨_, _, _, _, hlt⟩ := hstep past a g hinv ha
    omega
  | succ rounds ih =>
    apply get_bind
    cases hfind : find g with
    | none => exact pure ⟨hinv, hfind⟩
    | some a =>
      apply bind (hstep past a g hinv hfind)
      rintro _ g' ⟨hinv', hlt⟩
      exact ih hinv' (by omega)

end Succeeds

end ContextFree

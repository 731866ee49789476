import ContextFree.Proofs.Runs

/-!
# Refusals

An elementary edit that is refused leaves the grammar as it was, indexes included. A batch does what its elements
do in turn, up to the first one that is refused; it ends in the error of that element, and those after it are not
looked at. Which element this is depends on what the ones before it did, so a batch is compared with the longest
prefix of its elements that succeed in turn.
-/

namespace ContextFree

variable {α : Type} {single : α → Edit Unit} {done later xs : List α} {x : α} {g h k : Grammar} {e : Error}

/-- A refusal leaves the grammar as it was. -/
def Atomic (edit : Edit Unit) : Prop :=
  ∀ g h e, edit g = .error e h → h = g

/-- The edits for the elements of a list succeed one after the other. -/
inductive InTurn (single : α → Edit Unit) : List α → Grammar → Grammar → Prop where
  | nil (g : Grammar) : InTurn single [] g g
  | cons {x : α} {xs : List α} {g h k : Grammar} (first : single x g = .ok () h) (rest : InTurn single xs h k) :
      InTurn single (x :: xs) g k

/-- Of the prefixes of a list whose edits succeed in turn, `done` is the longest, and it leads to `h`. -/
structure LongestInTurn (single : α → Edit Unit) (xs done : List α) (g h : Grammar) : Prop where
  isPrefix : done <+: xs
  inTurn : InTurn single done g h
  longest : ∀ other k, other <+: xs → InTurn single other g k → other.length ≤ done.length

/-- A batch of edits leaves what the longest prefix that succeeds in turn leaves. Unless that prefix is the whole
list the batch ends in the error of the next element, whatever comes after it. -/
def StopsAtRefusal (single : α → Edit Unit) (batch : List α → Edit Unit) : Prop :=
  ∀ xs g, ∃ done h, LongestInTurn single xs done g h ∧
    (done = xs ∧ batch xs g = .ok () h ∨
      ∃ x later e, xs = done ++ x :: later ∧ single x h = .error e h ∧
        ∀ later', batch (done ++ x :: later') g = .error e h)

lemma Atomic.guarded (refusal : Grammar → Option Error) (update : Grammar → Grammar) :
    Atomic (Edit.guarded refusal update) := by
  intro g h e herror
  unfold Edit.guarded at herror
  cases hr : refusal g with
  | none => simp [hr] at herror
  | some e' =>
    simp only [hr, EStateM.Result.error.injEq] at herror
    exact herror.2.symm

namespace InTurn

lemma forM_append (hdone : InTurn single done g h) (later : List α) :
    (done ++ later).forM single g = later.forM single h := by
  induction hdone with
  | nil => rfl
  | cons first _ ih => exact (bind_of_ok first).trans ih

lemma forM_eq (hdone : InTurn single done g h) : done.forM single g = .ok () h := by
  have hrun := hdone.forM_append []
  rwa [List.append_nil] at hrun

lemma forM_of_refusal (hdone : InTurn single done g h) (hx : single x h = .error e k) (later : List α) :
    (done ++ x :: later).forM single g = .error e k :=
  (hdone.forM_append (x :: later)).trans (bind_of_error hx)

lemma not_beyond_refusal (hdone : InTurn single done g h) (hx : single x h = .error e k) :
    ¬∃ k', InTurn single (done ++ x :: later) g k' := by
  rintro ⟨k', hmore⟩
  have hok := hmore.forM_eq
  have herror := hdone.forM_of_refusal hx later
  rw [hok] at herror
  cases herror

end InTurn

lemma LongestInTurn.whole (hall : InTurn single xs g h) : LongestInTurn single xs xs g h :=
  ⟨List.prefix_rfl, hall, fun _ _ hpre _ => hpre.length_le⟩

lemma LongestInTurn.of_refusal (hdone : InTurn single done g h) (hx : single x h = .error e k) :
    LongestInTurn single (done ++ x :: later) done g h := by
  refine ⟨List.prefix_append _ _, hdone, fun other k' hpre hother => ?_⟩
  by_contra hlt
  have hx' : done ++ [x] <+: done ++ x :: later := ⟨later, by simp⟩
  obtain ⟨more, hmore⟩ : done ++ [x] <+: other :=
    List.prefix_of_prefix_length_le hx' hpre (by simp only [List.length_append, List.length_singleton]; omega)
  rw [← hmore, List.append_assoc] at hother
  exact hdone.not_beyond_refusal hx ⟨k', hother⟩

lemma exists_inTurn (hatomic : ∀ x, Atomic (single x)) (xs : List α) (g : Grammar) :
    ∃ done h, InTurn single done g h ∧
      (done = xs ∨ ∃ x later e, xs = done ++ x :: later ∧ single x h = .error e h) := by
  induction xs generalizing g with
  | nil => exact ⟨[], g, .nil g, .inl rfl⟩
  | cons x xs ih =>
    cases hx : single x g with
    | error e h =>
      obtain rfl := hatomic x g h e hx
      exact ⟨[], h, .nil h, .inr ⟨x, xs, e, rfl, hx⟩⟩
    | ok u g' =>
      obtain ⟨done, h, hdone, rfl | ⟨y, later, e, rfl, hy⟩⟩ := ih g'
      · exact ⟨x :: done, h, .cons hx hdone, .inl rfl⟩
      · exact ⟨x :: done, h, .cons hx hdone, .inr ⟨y, later, e, rfl, hy⟩⟩

lemma StopsAtRefusal.forM (hatomic : ∀ x, Atomic (single x)) :
    StopsAtRefusal single fun xs => xs.forM single := by
  intro xs g
  obtain ⟨done, h, hdone, rfl | ⟨x, later, e, rfl, hx⟩⟩ := exists_inTurn hatomic xs g
  · exact ⟨done, h, .whole hdone, .inl ⟨rfl, hdone.forM_eq⟩⟩
  · exact ⟨done, h, .of_refusal hdone hx, .inr ⟨x, later, e, rfl, hx, hdone.forM_of_refusal hx⟩⟩

namespace Grammar

/-- Elementary edits that are refused change nothing, and batches stop at the first refusal, with what was done
before it done. -/
theorem refused_edits_leave_no_trace :
    (∀ t, Atomic (insertTerminal t)) ∧ (∀ t, Atomic (eraseTerminal t)) ∧
    (∀ n, Atomic (insertNonterminal n)) ∧ (∀ n, Atomic (eraseNonterminal n)) ∧ (∀ n, Atomic (setStart n)) ∧
    (∀ r, Atomic (insertRule r)) ∧ (∀ r, Atomic (eraseRule r)) ∧
    StopsAtRefusal insertTerminal insertTerminals ∧ StopsAtRefusal eraseTerminal eraseTerminals ∧
    StopsAtRefusal insertNonterminal insertNonterminals ∧
    StopsAtRefusal eraseNonterminal eraseNonterminals ∧
    StopsAtRefusal insertRule insertRules ∧ StopsAtRefusal eraseRule eraseRules := by
  have insertTerminal_atomic : ∀ t, Atomic (insertTerminal t) := fun t => .guarded _ _
  have eraseTerminal_atomic : ∀ t, Atomic (eraseTerminal t) := fun t => .guarded _ _
  have insertNonterminal_atomic : ∀ n, Atomic (insertNonterminal n) := fun n => .guarded _ _
  have eraseNonterminal_atomic : ∀ n, Atomic (eraseNonterminal n) := fun n => .guarded _ _
  have setStart_atomic : ∀ n, Atomic (setStart n) := fun n => .guarded _ _
  have insertRule_atomic : ∀ r, Atomic (insertRule r) := fun r => .guarded _ _
  have eraseRule_atomic : ∀ r, Atomic (eraseRule r) := fun r => .guarded _ _
  exact ⟨insertTerminal_atomic, eraseTerminal_atomic, insertNonterminal_atomic, eraseNonterminal_atomic,
    setStart_atomic, insertRule_atomic, eraseRule_atomic, .forM insertTerminal_atomic,
    .forM eraseTerminal_atomic, .forM insertNonterminal_atomic, .forM eraseNonterminal_atomic,
    .forM insertRule_atomic, .forM eraseRule_atomic⟩

end Grammar

end ContextFree

import ContextFree.BreadthFirst
import Mathlib.Data.List.Nodup
import Mathlib.Logic.Relation
import Mathlib.Tactic

/-!
# Walks reach everything

A breadth-first walk with as many steps as there are nodes discovers exactly the nodes that its root leads to,
each of them once and the root first.
-/

namespace ContextFree.BreadthFirst

variable {α : Type} {next : α → List α} {nodes : List α} {root x : α} {done queue known l : List α}

/-- One node leads to another along neighbours. -/
abbrev LeadsTo (next : α → List α) : α → α → Prop :=
  Relation.ReflTransGen fun x y => y ∈ next x

/-- What a walk from a root knows at every step. -/
structure Walking (next : α → List α) (nodes : List α) (root : α) (done queue : List α) : Prop where
  nodup : (done ++ queue).Nodup
  subset : ∀ x ∈ done ++ queue, x ∈ nodes
  sound : ∀ x ∈ done ++ queue, LeadsTo next root x
  closed : ∀ x ∈ done, ∀ y ∈ next x, y ∈ done ++ queue
  root_mem : root ∈ done ++ queue

namespace Walking

lemma begin (hroot : root ∈ nodes) : Walking next nodes root [] [root] where
  nodup := by simp
  subset := by simpa using hroot
  sound := by simpa using Relation.ReflTransGen.refl
  closed := by simp
  root_mem := by simp

lemma mem_iff_of_finished (h : Walking next nodes root done []) : x ∈ done ↔ LeadsTo next root x := by
  have hclosed := h.closed
  have hroot := h.root_mem
  rw [List.append_nil] at hclosed hroot
  constructor
  · exact fun hx => h.sound x (List.mem_append_left _ hx)
  · intro hx
    induction hx with
    | refl => exact hroot
    | tail _ hyz ih => exact hclosed _ ih _ hyz

lemma queue_eq_nil (h : Walking next nodes root done queue) (hlen : nodes.length ≤ done.length) :
    queue = [] := by
  have hle := (h.nodup.subperm h.subset).length_le
  rw [List.length_append] at hle
  exact List.length_eq_zero_iff.mp (by omega)

end Walking

variable [BEq α]

lemma append_isPrefix_walk (next : α → List α) (steps : Nat) (done queue : List α) :
    done ++ queue <+: walk next steps done queue := by
  induction steps generalizing done queue with
  | zero => exact List.prefix_rfl
  | succ steps ih =>
    cases queue with
    | nil => simp [walk]
    | cons y queue =>
      rw [walk]
      refine List.IsPrefix.trans ?_ (ih _ _)
      exact ⟨unseen (done ++ y :: queue) (next y), by simp⟩

variable [LawfulBEq α]

lemma mem_unseen : x ∈ unseen known l ↔ x ∈ l ∧ x ∉ known := by
  induction l generalizing known with
  | nil => simp [unseen]
  | cons y l ih =>
    rw [unseen]
    by_cases hy : y ∈ known
    · rw [if_pos (List.contains_iff_mem.mpr hy), ih, List.mem_cons]
      exact ⟨fun h => ⟨.inr h.1, h.2⟩, fun h => ⟨h.1.resolve_left fun e => h.2 (e ▸ hy), h.2⟩⟩
    · rw [if_neg (mt List.contains_iff_mem.mp hy), List.mem_cons, ih]
      by_cases hxy : x = y
      · simp [hxy, hy]
      · simp [hxy]

lemma nodup_append_unseen (h : known.Nodup) : (known ++ unseen known l).Nodup := by
  induction l generalizing known with
  | nil => simpa [unseen] using h
  | cons y l ih =>
    rw [unseen]
    by_cases hy : y ∈ known
    · rw [if_pos (List.contains_iff_mem.mpr hy)]
      exact ih h
    · rw [if_neg (mt List.contains_iff_mem.mp hy)]
      have hy' : (known ++ [y]).Nodup :=
        (List.perm_append_singleton y known).nodup_iff.mpr (List.nodup_cons.mpr ⟨hy, h⟩)
      simpa using ih hy'

namespace Walking

lemma step (hnext : ∀ x ∈ nodes, ∀ y ∈ next x, y ∈ nodes) (h : Walking next nodes root done (x :: queue)) :
    Walking next nodes root (done ++ [x]) (queue ++ unseen (done ++ x :: queue) (next x)) := by
  have hlist : done ++ [x] ++ (queue ++ unseen (done ++ x :: queue) (next x)) =
      (done ++ x :: queue) ++ unseen (done ++ x :: queue) (next x) := by simp
  have hx : x ∈ done ++ x :: queue := by simp
  constructor
  · rw [hlist]
    exact nodup_append_unseen h.nodup
  · rw [hlist]
    intro y hy
    rcases List.mem_append.mp hy with hy | hy
    · exact h.subset y hy
    · exact hnext x (h.subset x hx) y (mem_unseen.mp hy).1
  · rw [hlist]
    intro y hy
    rcases List.mem_append.mp hy with hy | hy
    · exact h.sound y hy
    · exact (h.sound x hx).tail (mem_unseen.mp hy).1
  · rw [hlist]
    intro y hy z hz
    rcases List.mem_append.mp hy with hy | hy
    · exact List.mem_append_left _ (h.closed y hy z hz)
    · rw [List.mem_singleton.mp hy] at hz
      by_cases hknown : z ∈ done ++ x :: queue
      · exact List.mem_append_left _ hknown
      · exact List.mem_append_right _ (mem_unseen.mpr ⟨hz, hknown⟩)
  · rw [hlist]
    exact List.mem_append_left _ h.root_mem

lemma walk_spec (hnext : ∀ x ∈ nodes, ∀ y ∈ next x, y ∈ nodes) {steps : Nat}
    (h : Walking next nodes root done queue) (hsteps : nodes.length ≤ steps + done.length) :
    (walk next steps done queue).Nodup ∧ ∀ x, x ∈ walk next steps done queue ↔ LeadsTo next root x := by
  induction steps generalizing done queue with
  | zero =>
    have hqueue := h.queue_eq_nil (by omega)
    subst hqueue
    rw [walk]
    refine ⟨h.nodup, fun x => ?_⟩
    rw [List.append_nil]
    exact h.mem_iff_of_finished
  | succ steps ih =>
    cases queue with
    | nil =>
      rw [walk]
      refine ⟨?_, fun x => h.mem_iff_of_finished⟩
      simpa using h.nodup
    | cons y queue =>
      rw [walk]
      apply ih (h.step hnext)
      simp only [List.length_append, List.length_singleton]
      omega

lemma walk_eq_of_le (hnext : ∀ x ∈ nodes, ∀ y ∈ next x, y ∈ nodes) {steps steps' : Nat}
    (h : Walking next nodes root done queue) (hsteps : nodes.length ≤ steps + done.length) (hle : steps ≤ steps') :
    walk next steps' done queue = walk next steps done queue := by
  induction steps generalizing steps' done queue with
  | zero =>
    have hqueue := h.queue_eq_nil (by omega)
    subst hqueue
    cases steps' <;> simp [walk]
  | succ steps ih =>
    obtain ⟨steps', rfl⟩ : ∃ more, steps' = more + 1 := ⟨steps' - 1, by omega⟩
    cases queue with
    | nil => rfl
    | cons y queue =>
      rw [walk, walk]
      apply ih (h.step hnext)
      · simp only [List.length_append, List.length_singleton]
        omega
      · omega

end Walking

section Complete

variable (hroot : root ∈ nodes) (hnext : ∀ x ∈ nodes, ∀ y ∈ next x, y ∈ nodes)

include hroot hnext

/-- A walk discovers exactly the nodes that its root leads to. -/
theorem mem_walk_iff : x ∈ walk next nodes.length [] [root] ↔ LeadsTo next root x :=
  ((Walking.begin hroot).walk_spec hnext (by simp)).2 x

lemma walk_nodup : (walk next nodes.length [] [root]).Nodup :=
  ((Walking.begin hroot).walk_spec hnext (by simp)).1

lemma mem_tail_walk_iff : x ∈ (walk next nodes.length [] [root]).tail ↔ x ≠ root ∧ LeadsTo next root x := by
  obtain ⟨rest, hrest⟩ := append_isPrefix_walk next nodes.length [] [root]
  have hnodup := walk_nodup hroot hnext
  have hmem := mem_walk_iff (x := x) hroot hnext
  rw [← hrest] at hmem hnodup ⊢
  simp only [List.nil_append, List.cons_append, List.nodup_cons, List.mem_cons, List.tail_cons] at hmem hnodup ⊢
  constructor
  · intro hx
    exact ⟨fun h => hnodup.1 (h ▸ hx), hmem.mp (.inr hx)⟩
  · rintro ⟨hne, hx⟩
    exact (hmem.mpr hx).resolve_left hne

end Complete

end ContextFree.BreadthFirst

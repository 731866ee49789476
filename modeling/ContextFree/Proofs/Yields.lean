import ContextFree.Derivation
import Mathlib.Tactic

/-!
# Derivations as trees

`Yields` reads a derivation along the sequence it starts from: every symbol either stays or is expanded by a
rule whose right side is read in the same way. An induction on it meets each rule together with what becomes of
its right side, which is what comparisons of two rule sets need. `Derives` and `Yields` agree.
-/

namespace ContextFree

/-- The second sequence comes from the first when every symbol is kept or expanded along a tree of rules. -/
inductive Yields (rules : List Rule) : List Symbol → List Symbol → Prop where
  | nil : Yields rules [] []
  | keep (s : Symbol) {u w : List Symbol} (rest : Yields rules u w) : Yields rules (s :: u) (s :: w)
  | expand {r : Rule} {u v w : List Symbol} (mem : r ∈ rules) (inner : Yields rules r.right v)
      (rest : Yields rules u w) : Yields rules (r.left :: u) (v ++ w)

variable {rules rules' : List Rule} {u v w x : List Symbol} {s : Symbol}

namespace Yields

lemma refl (u : List Symbol) : Yields rules u u := by
  induction u with
  | nil => exact nil
  | cons s u ih => exact keep s ih

lemma append (h : Yields rules u v) (h' : Yields rules w x) : Yields rules (u ++ w) (v ++ x) := by
  induction h with
  | nil => exact h'
  | keep s _ ih => exact keep s ih
  | expand mem inner _ _ ih =>
    rw [List.append_assoc]
    exact expand mem inner ih

lemma split (h : Yields rules (u ++ v) w) :
    ∃ w₁ w₂, w = w₁ ++ w₂ ∧ Yields rules u w₁ ∧ Yields rules v w₂ := by
  induction u generalizing w with
  | nil => exact ⟨[], w, rfl, nil, h⟩
  | cons s u ih =>
    rw [List.cons_append] at h
    cases h with
    | keep _ rest =>
      obtain ⟨w₁, w₂, rfl, h₁, h₂⟩ := ih rest
      exact ⟨s :: w₁, w₂, rfl, keep s h₁, h₂⟩
    | @expand r _ x _ mem inner rest =>
      obtain ⟨w₁, w₂, rfl, h₁, h₂⟩ := ih rest
      exact ⟨x ++ w₁, w₂, by rw [List.append_assoc], expand mem inner h₁, h₂⟩

lemma eq_nil_of_nil (h : Yields rules [] w) : w = [] := by
  cases h
  rfl

lemma of_mem {r : Rule} (mem : r ∈ rules) (h : Yields rules r.right w) : Yields rules [r.left] w := by
  simpa using expand mem h nil

lemma singleton_cases (h : Yields rules [s] w) :
    w = [s] ∨ ∃ r ∈ rules, r.left = s ∧ Yields rules r.right w := by
  cases h with
  | keep _ rest =>
    rw [rest.eq_nil_of_nil]
    exact .inl rfl
  | @expand r _ x y mem inner rest =>
    rw [rest.eq_nil_of_nil, List.append_nil]
    exact .inr ⟨r, mem, rfl, inner⟩

lemma of_produces (h : Produces rules u v) (h' : Yields rules v w) : Yields rules u w := by
  obtain ⟨mem, before, after⟩ := h
  obtain ⟨w₁, w₂, rfl, h₁, h₂⟩ := h'.split
  obtain ⟨w₃, w₄, rfl, h₃, h₄⟩ := h₁.split
  rw [List.append_assoc]
  exact h₃.append (expand mem h₄ h₂)

lemma of_rulewise {P : Symbol → Prop} (h : Yields rules u w) (hw : ∀ t ∈ w, P t)
    (hrule : ∀ r ∈ rules, ∀ v, (∀ t ∈ v, P t) → Yields rules r.right v → Yields rules' r.right v →
      Yields rules' [r.left] v) : Yields rules' u w := by
  induction h with
  | nil => exact nil
  | keep s _ ih => exact keep s (ih fun t ht => hw t (List.mem_cons_of_mem _ ht))
  | @expand r u v w mem inner _ ih₁ ih₂ =>
    have hv : ∀ t ∈ v, P t := fun t ht => hw t (List.mem_append_left _ ht)
    have hrest := ih₂ fun t ht => hw t (List.mem_append_right _ ht)
    exact (hrule r mem v hv inner (ih₁ hv)).append hrest

lemma mem_or_mem_right (h : Yields rules u w) (hs : s ∈ w) : s ∈ u ∨ ∃ r ∈ rules, s ∈ r.right := by
  induction h with
  | nil => exact .inl hs
  | keep t _ ih =>
    rcases List.mem_cons.mp hs with rfl | hs
    · exact .inl List.mem_cons_self
    · exact (ih hs).imp_left (List.mem_cons_of_mem _)
  | expand mem _ _ ih₁ ih₂ =>
    rcases List.mem_append.mp hs with hs | hs
    · exact (ih₁ hs).elim (fun hr => .inr ⟨_, mem, hr⟩) .inr
    · exact (ih₂ hs).imp_left (List.mem_cons_of_mem _)

end Yields

/-- A sequence derives what it yields along trees, and nothing else. -/
theorem derives_iff_yields : Derives rules u w ↔ Yields rules u w := by
  constructor
  · rintro ⟨n, h⟩
    induction h with
    | refl => exact .refl _
    | head first _ ih => exact .of_produces first ih
  · intro h
    induction h with
    | nil => exact .refl _ _
    | keep s _ ih => exact (Derives.refl _ [s]).append ih
    | expand mem _ _ ih₁ ih₂ => exact ((Derives.of_mem mem).trans ih₁).append ih₂

namespace Derives

/-- If every rule is a derivation once each symbol stands for a sequence, then so is every derivation. -/
lemma flatMap {f : Symbol → List Symbol}
    (hf : ∀ r ∈ rules, Derives rules' (f r.left) (r.right.flatMap f)) (h : Derives rules u v) :
    Derives rules' (u.flatMap f) (v.flatMap f) := by
  rw [derives_iff_yields] at h
  induction h with
  | nil => exact .refl _ _
  | keep s _ ih =>
    rw [List.flatMap_cons, List.flatMap_cons]
    exact (Derives.refl _ (f s)).append ih
  | expand mem _ _ ih₁ ih₂ =>
    rw [List.flatMap_cons, List.flatMap_append]
    exact ((hf _ mem).trans ih₁).append ih₂

lemma of_rules (hrules : ∀ r ∈ rules, Derives rules' [r.left] r.right) (h : Derives rules u v) :
    Derives rules' u v := by
  have hsingle : Derives rules' (u.flatMap fun s => [s]) (v.flatMap fun s => [s]) :=
    h.flatMap (by simpa using hrules)
  simpa using hsingle

lemma mono (hsub : ∀ r ∈ rules, r ∈ rules') (h : Derives rules u v) : Derives rules' u v :=
  h.of_rules fun r hr => of_mem (hsub r hr)

lemma map {f : Symbol → Symbol} (hf : ∀ s ∈ u, Derives rules [f s] [s]) : Derives rules (u.map f) u := by
  induction u with
  | nil => exact .refl _ _
  | cons s u ih =>
    obtain ⟨hs, hu⟩ := List.forall_mem_cons.mp hf
    exact hs.append (ih hu)

end Derives

end ContextFree

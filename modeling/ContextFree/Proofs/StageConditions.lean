import ContextFree.Proofs.NormalShapes

/-!
# Conditions along the stages

Each stage establishes one condition on the rules, and together the conditions are normal form. They speak of
the lists of a grammar only.
-/

namespace ContextFree.Grammar

/-- Terminals stand alone on a right side. -/
def TerminalsAlone (g : Grammar) : Prop :=
  ∀ r ∈ g.rules, 2 ≤ r.right.length → ∀ s ∈ r.right, s ∉ g.terminals

/-- Right sides have at most two symbols. -/
def RulesShort (g : Grammar) : Prop :=
  ∀ r ∈ g.rules, r.right.length ≤ 2

/-- The start symbol occurs on no right side. -/
def StartUnused (g : Grammar) : Prop :=
  ∀ r ∈ g.rules, g.start ∉ r.right

/-- Only the start symbol has an epsilon rule. -/
def EpsilonAtStart (g : Grammar) : Prop :=
  ∀ r ∈ g.rules, r.right = [] → r.left = g.start

/-- No right side is a single nonterminal. -/
def UnitFree (g : Grammar) : Prop :=
  ∀ r ∈ g.rules, ∀ s, r.right = [s] → s ∉ g.nonterminals

variable {g : Grammar}

lemma Consistent.normalShape (hg : g.Consistent) (halone : g.TerminalsAlone) (hshort : g.RulesShort)
    (hepsilon : g.EpsilonAtStart) (hunit : g.UnitFree) {r : Rule} (hr : r ∈ g.rules) : g.NormalShape r := by
  obtain ⟨a, right⟩ := r
  have hlength : right.length ≤ 2 := hshort _ hr
  have hright : ∀ s ∈ right, s ∈ g.terminals ∨ s ∈ g.nonterminals := fun s hs =>
    List.mem_append.mp (hg.right_mem _ hr s hs)
  match right with
  | [] =>
    obtain rfl : a = g.start := hepsilon _ hr rfl
    exact .epsilon
  | [s] => exact .terminal a ((hright s (by simp)).resolve_right (hunit _ hr s rfl))
  | [s, t] =>
    have hpair : ∀ x ∈ [s, t], x ∈ g.nonterminals := fun x hx =>
      (hright x hx).resolve_left (halone _ hr le_rfl x hx)
    exact .pair a (hpair s (by simp)) (hpair t (by simp))
  | _ :: _ :: _ :: _ => simp at hlength

lemma Consistent.checkNormal_eq_ok (hg : g.Consistent) (halone : g.TerminalsAlone) (hshort : g.RulesShort)
    (hstart : g.StartUnused) (hepsilon : g.EpsilonAtStart) (hunit : g.UnitFree) :
    g.checkNormal = .ok () := by
  rw [checkNormal_eq_ok_iff, hg.violation?_eq_none]
  refine ⟨fun r hr => hg.normalShape halone hshort hepsilon hunit hr, ?_⟩
  rintro ⟨-, r, hr, hx⟩
  exact hstart r hr hx

end ContextFree.Grammar

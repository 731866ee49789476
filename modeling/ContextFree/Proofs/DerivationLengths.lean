import ContextFree.Proofs.StartCopies

/-!
# Lengths of derivations in normal form

In normal form a step that does not erase the start symbol makes a sequence weigh one more, if terminals weigh two and
all else weighs one: a pair of nonterminals takes the place of one, or a terminal does. The start symbol can be erased
only before it has been replaced. So the weights at both ends of a derivation tell how many steps it has.
-/

namespace ContextFree.Grammar

variable {g : Grammar} {r : Rule} {n : Nat} {s : Symbol} {u v w : List Symbol}

/-- The length of a sequence, with every terminal counted twice. -/
def weight (g : Grammar) (u : List Symbol) : Nat :=
  u.length + u.countP (· ∈ g.terminals)

lemma weight_append (g : Grammar) (u v : List Symbol) : g.weight (u ++ v) = g.weight u + g.weight v := by
  unfold weight
  rw [List.length_append, List.countP_append]
  omega

lemma weight_of_terminals (hw : ∀ t ∈ w, t ∈ g.terminals) : g.weight w = 2 * w.length := by
  have hcount : w.countP (· ∈ g.terminals) = w.length := by
    rw [List.countP_eq_length]
    simpa using hw
  unfold weight
  omega

lemma weight_of_nonterminals (hg : g.Consistent) (hu : ∀ s ∈ u, s ∈ g.nonterminals) : g.weight u = u.length := by
  have hcount : u.countP (· ∈ g.terminals) = 0 := by
    rw [List.countP_eq_zero]
    intro s hs hterm
    exact hg.disjoint (of_decide_eq_true hterm) (hu s hs)
  unfold weight
  omega

/-- The start symbol cannot be erased from the sequence: it has no epsilon rule or does not occur. -/
def StartStays (g : Grammar) (u : List Symbol) : Prop :=
  ⟨g.start, []⟩ ∈ g.rules → g.start ∉ u

namespace NormalForm

variable (hform : g.NormalForm) (hg : g.Consistent)

include hform hg

lemma weight_right (hr : r ∈ g.rules) (hne : r.right ≠ []) : g.weight r.right = 2 := by
  have hshort := hform.rulesShort r hr
  have hsymbol := hg.right_mem r hr
  match hright : r.right with
  | [] => exact absurd hright hne
  | [t] =>
    rw [hright] at hsymbol
    have ht : t ∈ g.terminals :=
      (List.mem_append.mp (hsymbol t (by simp))).resolve_right (hform.unitFree r hr t hright)
    exact weight_of_terminals (by simpa using ht)
  | [s, t] =>
    have halone := hform.terminalsAlone r hr (by simp [hright])
    apply weight_of_nonterminals hg
    rw [← hright]
    intro x hx
    exact (List.mem_append.mp (hsymbol x hx)).resolve_left (halone x hx)
  | _ :: _ :: _ :: _ =>
    rw [hright] at hshort
    simp at hshort

omit hg in
lemma startStays_right (hr : r ∈ g.rules) : g.StartStays r.right :=
  fun hepsilon => hform.startUnused hepsilon r hr

/-- A step that cannot erase the start symbol adds one to the weight, and nor can the next step. -/
lemma weight_of_produces (hstep : Produces g.rules u v) (hu : g.StartStays u) :
    g.weight v = g.weight u + 1 ∧ g.StartStays v := by
  obtain @⟨r, hr, before, after⟩ := hstep
  constructor
  · have hne : r.right ≠ [] := by
      intro hnil
      have hleft := hform.epsilonAtStart r hr hnil
      have hrule : (⟨g.start, []⟩ : Rule) ∈ g.rules := by
        rw [← hleft, ← hnil]
        exact hr
      exact hu hrule (by simp [hleft])
    have hleft : g.weight [r.left] = 1 := weight_of_nonterminals hg (by simpa using hg.left_mem r hr)
    have hright := hform.weight_right hg hr hne
    rw [← List.singleton_append (x := r.left)]
    simp only [weight_append]
    omega
  · intro hepsilon hmem
    have hold := hu hepsilon
    have hnew := hform.startStays_right hr hepsilon
    simp only [List.mem_append, List.mem_cons, not_or] at hold hmem
    tauto

lemma weight_of_derivesIn (hsteps : DerivesIn g.rules n u w) (hu : g.StartStays u) :
    g.weight w = g.weight u + n := by
  induction hsteps with
  | refl => rfl
  | head first _ ih =>
    obtain ⟨hweight, hv⟩ := hform.weight_of_produces hg first hu
    have hrest := ih hv
    omega

lemma weight_of_derivesIn_start (hsteps : DerivesIn g.rules n [g.start] w) :
    (w = [] ∧ ⟨g.start, []⟩ ∈ g.rules) ∨ g.weight w = n + 1 := by
  have hone : g.weight [g.start] = 1 := weight_of_nonterminals hg (by simpa using hg.start_mem)
  cases hsteps with
  | refl => exact .inr hone
  | head first rest =>
    generalize hu : [g.start] = u at first
    obtain @⟨r, hr, before, after⟩ := first
    obtain ⟨rfl, hleft, rfl⟩ : before = [] ∧ r.left = g.start ∧ after = [] := by
      simpa [List.singleton_eq_append_iff] using hu
    rw [List.nil_append, List.append_nil] at rest
    by_cases hnil : r.right = []
    · rw [hnil] at rest
      have hempty : w = [] := (derives_iff_yields.mp ⟨_, rest⟩).eq_nil_of_nil
      refine .inl ⟨hempty, ?_⟩
      rw [← hleft, ← hnil]
      exact hr
    · have hright := hform.weight_right hg hr hnil
      have hweight := hform.weight_of_derivesIn hg rest (hform.startStays_right hr)
      right
      omega

lemma not_generatesFrom_nil (hs : s ≠ g.start) (hmem : s ∈ g.nonterminals) : ¬g.GeneratesFrom s [] := by
  rintro ⟨-, n, hsteps⟩
  have hone : g.weight [s] = 1 := weight_of_nonterminals hg (by simpa using hmem)
  have hweight := hform.weight_of_derivesIn hg hsteps fun _ => by simpa using hs.symm
  have hzero : g.weight [] = 0 := rfl
  omega

end NormalForm

/-- In normal form the start symbol generates the empty sequence by its own epsilon rule or not at all, and no other
nonterminal does. Every derivation of `n` terminals from the start symbol, for `n` at least one, has `2 * n - 1`
steps. -/
theorem normal_form_derivations_have_fixed_length (hg : g.Consistent) (hnormal : g.checkNormal = .ok ()) :
    (g.Generates [] ↔ ⟨g.start, []⟩ ∈ g.rules) ∧
    (∀ s ∈ g.nonterminals, s ≠ g.start → ¬g.GeneratesFrom s []) ∧
    ∀ n w, (∀ t ∈ w, t ∈ g.terminals) → 1 ≤ w.length → DerivesIn g.rules n [g.start] w → n = 2 * w.length - 1 := by
  have hform := hg.normalForm hnormal
  refine ⟨⟨?_, ?_⟩, ?_, ?_⟩
  · rintro ⟨-, n, hsteps⟩
    rcases hform.weight_of_derivesIn_start hg hsteps with ⟨-, hrule⟩ | hweight
    · exact hrule
    · cases hweight
  · intro hrule
    exact ⟨by simp, .of_mem hrule⟩
  · intro s hs hne
    exact hform.not_generatesFrom_nil hg hne hs
  · intro n w hw hlength hsteps
    rcases hform.weight_of_derivesIn_start hg hsteps with ⟨rfl, -⟩ | hweight
    · simp at hlength
    · rw [weight_of_terminals hw] at hweight
      omega

/-- Any number of `a`, at least one, and then one `b`; or nothing. -/
def manyThenOne : List Rule :=
  [⟨"S", []⟩, ⟨"S", ["A", "B"]⟩, ⟨"A", ["A", "A"]⟩, ⟨"A", ["a"]⟩, ⟨"B", ["b"]⟩]

theorem derivations_of_manyThenOne :
    ∃ g, ofParts "S" ["a", "b"] ["A", "B"] manyThenOne .standard = .ok g ∧ g.checkNormal = .ok () ∧
      g.Generates [] ∧ ¬g.GeneratesFrom "A" [] ∧ DerivesIn g.rules 5 ["S"] ["a", "a", "b"] ∧
      ∀ n, DerivesIn g.rules n ["S"] ["a", "a", "b"] → n = 5 := by
  obtain ⟨g, hg, hcontents⟩ := ofParts_eq_ok "S" ["a", "b"] ["A", "B"] manyThenOne .standard
    (by decide) (by decide) (by decide) (by decide) (by decide)
  obtain ⟨hstart, hterminals, hnonterminals, hrules, -⟩ := Contents.mk.inj hcontents
  have hconsistent : g.Consistent := .ofParts hg
  have hnormal : g.checkNormal = .ok () := by
    apply hconsistent.checkNormal_eq_ok
    · rw [TerminalsAlone, hrules, hterminals]
      decide
    · rw [RulesShort, hrules]
      decide
    · rw [StartUnused, hrules, hstart]
      decide
    · rw [EpsilonAtStart, hrules, hstart]
      decide
    · rw [UnitFree, hrules, hnonterminals]
      simp [manyThenOne]
  obtain ⟨hempty, hothers, hcount⟩ := normal_form_derivations_have_fixed_length hconsistent hnormal
  rw [hstart, hrules] at hempty
  rw [hstart, hnonterminals] at hothers
  rw [hstart, hterminals] at hcount
  refine ⟨g, hg, hnormal, hempty.mpr (by decide), hothers "A" (by decide) (by decide), ?_, ?_⟩
  · have hstep : ∀ r ∈ manyThenOne, ∀ before after,
        Produces g.rules (before ++ r.left :: after) (before ++ r.right ++ after) := by
      intro r hr before after
      exact .step (hrules ▸ hr) before after
    exact .head (hstep ⟨"S", ["A", "B"]⟩ (by decide) [] [])
      (.head (hstep ⟨"A", ["A", "A"]⟩ (by decide) [] ["B"])
        (.head (hstep ⟨"A", ["a"]⟩ (by decide) [] ["A", "B"])
          (.head (hstep ⟨"A", ["a"]⟩ (by decide) ["a"] ["B"])
            (.head (hstep ⟨"B", ["b"]⟩ (by decide) ["a", "a"] []) (.refl _)))))
  · intro n hsteps
    exact hcount n ["a", "a", "b"] (by decide) (by decide) hsteps

end ContextFree.Grammar

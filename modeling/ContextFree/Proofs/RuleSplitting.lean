import ContextFree.Proofs.ConsistentEdits
import ContextFree.Proofs.FreshSymbols
import ContextFree.Proofs.StageConditions

/-!
# Split rules and a fresh start

A split puts a new symbol in place of all but the first symbol of a long right side, and a fresh start symbol
stands for the old one. Either symbol stands for what it replaces, so no language changes.
-/

namespace ContextFree.Grammar

variable {g : Grammar} {r : Rule} {s z : Symbol} {rest : List Symbol}

lemma splitCount_eq (g : Grammar) : g.splitCount = (g.rules.map (·.right.length - 2)).sum := by
  rw [splitCount, List.sum_eq_foldr, List.foldr_map]

/-- One round: a rule is split after the first symbol of its right side. -/
structure SplitStep (r : Rule) (s : Symbol) (rest : List Symbol) (z : Symbol) (g g' : Grammar) : Prop
    extends NamingStep z g.start (g.rules.filter (· != r) ++ [⟨r.left, [s, z]⟩, ⟨z, rest⟩]) g g' where
  rule_mem : r ∈ g.rules
  right_eq : r.right = s :: rest

lemma Consistent.succeeds_splitRule (hg : g.Consistent) (hr : r ∈ g.rules) (hright : r.right = s :: rest) :
    Succeeds (splitRule r) g fun _ g' => g'.Consistent ∧ ∃ z, SplitStep r s rest z g g' := by
  unfold splitRule
  rw [hright]
  refine Succeeds.bind (hg.succeeds_eraseRule hr) ?_
  rintro _ g₁ ⟨hg₁, hc₁⟩
  have hsym₁ : g₁.symbols = g.symbols :=
    symbols_eq (congrArg Contents.terminals hc₁) (congrArg Contents.nonterminals hc₁)
  refine Succeeds.bind hg₁.succeeds_insertFresh ?_
  rintro z g₂ ⟨-, hz, hg₂, hc₂⟩
  rw [hsym₁] at hz
  rw [hc₁, show g₁.nonterminals = g.nonterminals from congrArg Contents.nonterminals hc₁] at hc₂
  have hterm₂ : g₂.terminals = g.terminals := congrArg Contents.terminals hc₂
  have hnon₂ : g₂.nonterminals = g.nonterminals ++ [z] := congrArg Contents.nonterminals hc₂
  have hrules₂ : g₂.rules = g.rules.filter (· != r) := congrArg Contents.rules hc₂
  have hsym : ∀ x ∈ r.right, x ∈ g₂.symbols := by
    intro x hx
    rw [symbols, hterm₂, hnon₂, ← List.append_assoc]
    exact List.mem_append_left _ (hg.right_mem r hr x hx)
  have hzsym : z ∈ g₂.symbols := by simp [symbols, hnon₂]
  have hzright : ∀ o ∈ g₂.rules, z ∉ o.right := fun o ho =>
    hg.notMem_right_of_fresh hz (List.mem_of_mem_filter (hrules₂ ▸ ho))
  have hzleft : ∀ o ∈ g₂.rules, o.left ≠ z := fun o ho =>
    hg.left_ne_of_fresh hz (List.mem_of_mem_filter (hrules₂ ▸ ho))
  refine Succeeds.bind (hg₂.succeeds_insertRule (r := ⟨r.left, [s, z]⟩) ?_ ?_ ?_) ?_
  · simpa [hnon₂] using .inl (hg.left_mem r hr)
  · simpa [hzsym] using hsym s (by simp [hright])
  · exact fun h => hzright _ h (by simp)
  rintro _ g₃ ⟨hg₃, hc₃⟩
  have hrules₃ : g₃.rules = g₂.rules ++ [⟨r.left, [s, z]⟩] := congrArg Contents.rules hc₃
  have hnon₃ : g₃.nonterminals = g₂.nonterminals := congrArg Contents.nonterminals hc₃
  have hsym₃ : g₃.symbols = g₂.symbols := symbols_eq (congrArg Contents.terminals hc₃) hnon₃
  refine (hg₃.succeeds_insertRule (r := ⟨z, rest⟩) ?_ ?_ ?_).mono ?_
  · simp [hnon₃, hnon₂]
  · intro x hx
    rw [hsym₃]
    exact hsym x (by simp [hright, show x ∈ rest from hx])
  · rw [hrules₃, List.mem_append, List.mem_singleton]
    rintro (h | h)
    · exact hzleft _ h rfl
    · exact hg.left_ne_of_fresh hz hr (congrArg Rule.left h).symm
  · rintro _ g₄ ⟨hg₄, hc₄⟩
    refine ⟨hg₄, z, ⟨hg, hz, ?_⟩, hr, hright⟩
    rw [hc₄, hc₃, hc₂, hrules₃, hrules₂, List.append_assoc]
    rfl

namespace SplitStep

variable {g' : Grammar} {o : Rule}

lemma mem_rules (h : SplitStep r s rest z g g') :
    o ∈ g'.rules ↔ (o ∈ g.rules ∧ o ≠ r) ∨ o = ⟨r.left, [s, z]⟩ ∨ o = ⟨z, rest⟩ := by
  rw [h.rules_eq]
  simp

lemma elaborates (h : SplitStep r s rest z g g') : Elaborates g g' := by
  have hzr := h.notMem_right h.rule_mem
  rw [h.right_eq] at hzr
  obtain ⟨hzs, hzrest⟩ := List.ne_and_not_mem_of_not_mem_cons hzr
  refine h.toNamingStep.elaborates (e := rest) ?_ ?_ <;> rw [← h.rules_eq]
  · intro o ho
    by_cases hor : o = r
    · have hfirst : Derives g'.rules [r.left] [s, z] := Derives.of_mem (h.mem_rules.mpr (.inr (.inl rfl)))
      have hrest : Derives g'.rules [z] rest := Derives.of_mem (h.mem_rules.mpr (.inr (.inr rfl)))
      rw [hor, h.right_eq]
      exact hfirst.trans ((Derives.refl _ [s]).append hrest)
    · exact Derives.of_mem (h.mem_rules.mpr (.inl ⟨ho, hor⟩))
  · intro o ho
    rcases h.mem_rules.mp ho with ⟨ho, -⟩ | rfl | rfl
    · exact h.derives_standFor ho
    · rw [standFor_of_ne (h.left_ne h.rule_mem)]
      simpa [standFor_of_ne hzs.symm, h.right_eq] using Derives.of_mem h.rule_mem
    · rw [standFor_self, flatMap_standFor hzrest]
      exact .refl _ _

lemma terminalsAlone (h : SplitStep r s rest z g g') (hlong : 2 < r.right.length) (halone : g.TerminalsAlone) :
    g'.TerminalsAlone := by
  have hr : ∀ x ∈ s :: rest, x ∉ g.terminals := by
    rw [← h.right_eq]
    exact halone r h.rule_mem (by omega)
  obtain ⟨hs, hrest⟩ := List.forall_mem_cons.mp hr
  intro o ho hlength x hx
  rw [h.terminals_eq]
  rcases h.mem_rules.mp ho with ⟨ho, -⟩ | rfl | rfl
  · exact halone o ho hlength x hx
  · rcases List.mem_pair.mp hx with rfl | rfl
    · exact hs
    · exact fun hz => h.fresh (List.mem_append_left _ hz)
  · exact hrest x hx

lemma splitCount_add_one (h : SplitStep r s rest z g g') (hlong : 2 < r.right.length) :
    g'.splitCount + 1 = g.splitCount := by
  have hsum := List.sum_map_erase (fun o : Rule => o.right.length - 2) h.rule_mem
  rw [h.consistent.rules_nodup.erase_eq_filter] at hsum
  have hlength : r.right.length = rest.length + 1 := by rw [h.right_eq, List.length_cons]
  rw [splitCount_eq, splitCount_eq, h.rules_eq, ← hsum]
  simp only [List.map_append, List.map_cons, List.map_nil, List.sum_append, List.sum_cons, List.sum_nil,
    List.length_cons, List.length_nil]
  omega

end SplitStep

lemma rulesShort (h : g.longRule? = none) : g.RulesShort := by
  intro r hr
  have hfind := List.find?_eq_none.mp h r hr
  simpa using hfind

lemma Consistent.succeeds_splitLong (hg : g.Consistent) (inv : List Rule → Grammar → Prop) (hinv : inv [] g)
    (hstep : ∀ past r s rest z h h', 2 < r.right.length → SplitStep r s rest z h h' → inv past h →
      inv (past ++ [r]) h') :
    Succeeds splitLong g fun past g' => g'.Consistent ∧ inv past g' ∧ g'.longRule? = none := by
  apply Succeeds.get_bind
  refine (Succeeds.exhaust (fun past h => h.Consistent ∧ inv past h) (fun _ h => h.splitCount)
    ?_ ⟨hg, hinv⟩ le_rfl).mono ?_
  · rintro past r h ⟨hh, hinv⟩ hfind
    have hlong : 2 < r.right.length := by simpa using List.find?_some hfind
    obtain ⟨s, rest, hright⟩ := List.exists_cons_of_length_pos (by omega : 0 < r.right.length)
    refine (hh.succeeds_splitRule (List.mem_of_find?_eq_some hfind) hright).mono ?_
    rintro _ h' ⟨hh', z, hround⟩
    refine ⟨⟨hh', hstep past r s rest z h h' hlong hround hinv⟩, ?_⟩
    have := hround.splitCount_add_one hlong
    omega
  · rintro past g' ⟨⟨hg', hinv'⟩, hfind⟩
    exact ⟨hg', hinv', hfind⟩

/-- Splitting ends with short rules and the languages as they were. -/
theorem Consistent.succeeds_splitRules (hg : g.Consistent) :
    Succeeds splitRules g fun _ g' => g'.Consistent ∧ g'.start = g.start ∧ Elaborates g g' ∧
      (g.TerminalsAlone → g'.TerminalsAlone) ∧ g'.longRule? = none := by
  refine Succeeds.internal (Succeeds.discard ?_)
  have hrun := hg.succeeds_splitLong
    (fun _ h => h.start = g.start ∧ Elaborates g h ∧ (g.TerminalsAlone → h.TerminalsAlone))
    ⟨rfl, .refl g, id⟩ fun past r s rest z h h' hlong hround hinv =>
      ⟨hround.start_eq.trans hinv.1, hinv.2.1.trans hround.elaborates,
        fun halone => hround.terminalsAlone hlong (hinv.2.2 halone)⟩
  refine hrun.mono ?_
  rintro _ g' ⟨hg', ⟨hstart, helab, halone⟩, hfind⟩
  exact ⟨hg', hstart, helab, halone, hfind⟩

/-! ### The fresh start -/

/-- The start symbol is replaced by a new one, which leads to it. -/
structure StartStep (z : Symbol) (g g' : Grammar) : Prop
    extends NamingStep z z (g.rules ++ [⟨z, [g.start]⟩]) g g'

lemma Consistent.succeeds_freshenStart (hg : g.Consistent) :
    Succeeds freshenStart g fun _ g' => g'.Consistent ∧ StartStep g.freshName g g' := by
  refine Succeeds.internal (Succeeds.bind hg.succeeds_insertFresh ?_)
  rintro z g₁ ⟨hname, hz, hg₁, hc₁⟩
  rw [← hname]
  apply Succeeds.get_bind
  have hstart₁ : g₁.start = g.start := congrArg Contents.start hc₁
  have hnon₁ : g₁.nonterminals = g.nonterminals ++ [z] := congrArg Contents.nonterminals hc₁
  have hrules₁ : g₁.rules = g.rules := congrArg Contents.rules hc₁
  rw [hstart₁]
  refine Succeeds.bind (hg₁.succeeds_insertRule (r := ⟨z, [g.start]⟩) ?_ ?_ ?_) ?_
  · simp [hnon₁]
  · simp [symbols, hnon₁, hg.start_mem]
  · rw [hrules₁]
    exact fun h => hg.left_ne_of_fresh hz h rfl
  rintro _ g₂ ⟨hg₂, hc₂⟩
  have hnon₂ : g₂.nonterminals = g₁.nonterminals := congrArg Contents.nonterminals hc₂
  refine (hg₂.succeeds_setStart (n := z) (by simp [hnon₂, hnon₁])).mono ?_
  rintro _ g₃ ⟨hg₃, hc₃⟩
  refine ⟨hg₃, ⟨hg, hz, ?_⟩⟩
  rw [hc₃, hc₂, hc₁, hrules₁]
  rfl

namespace StartStep

variable {g' : Grammar} {o : Rule}

lemma mem_rules (h : StartStep z g g') : o ∈ g'.rules ↔ o ∈ g.rules ∨ o = ⟨z, [g.start]⟩ := by
  rw [h.rules_eq]
  simp

lemma start_ne (h : StartStep z g g') : g.start ≠ z :=
  h.ne_fresh (List.mem_append_right _ h.consistent.start_mem)

lemma derives_old (h : StartStep z g g') (ho : o ∈ g.rules) : Derives g'.rules [o.left] o.right :=
  Derives.of_mem (h.mem_rules.mpr (.inl ho))

lemma derives_new (h : StartStep z g g') (ho : o ∈ g'.rules) :
    Derives g.rules (standFor z [g.start] o.left) (o.right.flatMap (standFor z [g.start])) := by
  rcases h.mem_rules.mp ho with ho | rfl
  · exact h.derives_standFor ho
  · rw [standFor_self, flatMap_standFor (by simpa using h.start_ne.symm)]
    exact .refl _ _

lemma generates_iff (h : StartStep z g g') (w : List Symbol) : g'.Generates w ↔ g.Generates w := by
  have hfirst : Derives g'.rules [z] [g.start] := Derives.of_mem (h.mem_rules.mpr (.inr rfl))
  unfold Generates GeneratesFrom
  rw [h.start_eq, h.terminals_eq]
  apply and_congr_right
  intro hw
  constructor
  · intro hd
    have hback := hd.flatMap fun o ho => h.derives_new ho
    have hzw : z ∉ w := fun hz => h.fresh (List.mem_append_left _ (hw z hz))
    simpa [flatMap_standFor hzw] using hback
  · intro hd
    exact hfirst.trans (hd.of_rules fun o ho => h.derives_old ho)

lemma startUnused (h : StartStep z g g') : g'.StartUnused := by
  intro o ho
  rw [h.start_eq]
  rcases h.mem_rules.mp ho with ho | rfl
  · exact h.consistent.notMem_right_of_fresh h.fresh ho
  · simpa using h.start_ne.symm

lemma terminalsAlone (h : StartStep z g g') (halone : g.TerminalsAlone) : g'.TerminalsAlone := by
  intro o ho hlength x hx
  rw [h.terminals_eq]
  rcases h.mem_rules.mp ho with ho | rfl
  · exact halone o ho hlength x hx
  · simp at hlength

lemma rulesShort (h : StartStep z g g') (hshort : g.RulesShort) : g'.RulesShort := by
  intro o ho
  rcases h.mem_rules.mp ho with ho | rfl
  · exact hshort o ho
  · simp

end StartStep

end ContextFree.Grammar

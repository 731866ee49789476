import ContextFree.Proofs.RuleSplitting
import ContextFree.Proofs.TerminalIsolation

/-!
# What new names stand for

Isolation and splitting go through the rules in the order in which they find them and name new nonterminals on the
way. Their results are described here by the names alone: a name for every terminal that shares a right side, and a
name for every rest that is cut off a right side, no name being given twice. What a round names is new to all later
rounds, so the description is built from the last round backwards.
-/

namespace ContextFree

/-! ### Names for terminals -/

/-- The rule with names in place of the symbols on its right side, if these are two or more. -/
def Rule.isolated (names : Symbol → Symbol) (r : Rule) : Rule :=
  if 2 ≤ r.right.length then ⟨r.left, r.right.map names⟩ else r

lemma Rule.isolated_congr {names names' : Symbol → Symbol} {r : Rule}
    (h : 2 ≤ r.right.length → ∀ s ∈ r.right, names s = names' s) : r.isolated names = r.isolated names' := by
  unfold isolated
  split_ifs with hlength
  · rw [List.map_congr_left (h hlength)]
  · rfl

lemma Rule.isolated_substitute {r : Rule} (hlength : 2 ≤ r.right.length) (names : Symbol → Symbol)
    (t z : Symbol) : (r.substitute t z).isolated names = r.isolated fun s => names (if s = t then z else s) := by
  unfold isolated substitute
  simp [hlength, Function.comp_def]

namespace Grammar

variable {g g' g₁ : Grammar} {t u z : Symbol}

/-- The grammar after isolation, given the names of the terminals that share a right side. -/
structure Isolated (names : Symbol → Symbol) (g g' : Grammar) : Prop where
  start_eq : g'.start = g.start
  terminals_eq : g'.terminals = g.terminals
  name_fresh : ∀ t ∈ g.mixedTerminals, names t ∉ g.symbols
  name_inj : ∀ t ∈ g.mixedTerminals, ∀ u ∈ g.mixedTerminals, names t = names u → t = u
  name_other : ∀ s, s ∉ g.mixedTerminals → names s = s
  mem_nonterminals : ∀ n, n ∈ g'.nonterminals ↔ n ∈ g.nonterminals ∨ ∃ t ∈ g.mixedTerminals, names t = n
  mem_rules : ∀ r, r ∈ g'.rules ↔
    (∃ o ∈ g.rules, o.isolated names = r) ∨ ∃ t ∈ g.mixedTerminals, ⟨names t, [t]⟩ = r

lemma mixedTerminals_eq_nil (h : g.TerminalsAlone) : g.mixedTerminals = [] := by
  rw [List.eq_nil_iff_forall_not_mem]
  intro t ht
  obtain ⟨hterm, r, hr, hlength, hmem⟩ := mem_mixedTerminals_iff.mp ht
  exact h r hr hlength t hmem hterm

lemma IsolationStep.mem_mixedTerminals (h : IsolationStep t z g g₁) :
    u ∈ g₁.mixedTerminals ↔ u ∈ g.mixedTerminals ∧ u ≠ t := by
  rw [h.mixedTerminals_eq, List.mem_filter, bne_iff_ne]

lemma IsolationStep.exists_name_iff (hstep : IsolationStep t z g g₁) (ht : t ∈ g.mixedTerminals)
    (names : Symbol → Symbol) {P : Symbol → Symbol → Prop} :
    (∃ u ∈ g.mixedTerminals, P u (Function.update names t z u)) ↔
      P t z ∨ ∃ u ∈ g₁.mixedTerminals, P u (names u) := by
  constructor
  · rintro ⟨u, hu, hP⟩
    by_cases hut : u = t
    · rw [hut, Function.update_self] at hP
      exact .inl hP
    · rw [Function.update_of_ne hut] at hP
      exact .inr ⟨u, hstep.mem_mixedTerminals.mpr ⟨hu, hut⟩, hP⟩
  · rintro (hP | ⟨u, hu, hP⟩)
    · exact ⟨t, ht, by rwa [Function.update_self]⟩
    · obtain ⟨hu, hut⟩ := hstep.mem_mixedTerminals.mp hu
      exact ⟨u, hu, by rwa [Function.update_of_ne hut]⟩

namespace Isolated

variable {names : Symbol → Symbol}

lemma refl (h : g.mixedTerminals = []) : Isolated id g g := by
  have hid : ∀ o : Rule, o.isolated id = o := by
    intro o
    simp [Rule.isolated]
  constructor <;> simp [h, hid]

section Step

variable (hstep : IsolationStep t z g g₁) (h : Isolated names g₁ g')

include hstep h

lemma name_new (hu : u ∈ g.mixedTerminals) (hut : u ≠ t) : names u ∉ g.symbols ∧ names u ≠ z := by
  have hfresh := h.name_fresh u (hstep.mem_mixedTerminals.mpr ⟨hu, hut⟩)
  rwa [hstep.mem_symbols, not_or] at hfresh

lemma name_self : names z = z := by
  apply h.name_other
  intro hz
  have hterm : z ∈ g.terminals := List.mem_of_mem_filter (hstep.mem_mixedTerminals.mp hz).1
  exact hstep.fresh (List.mem_append_left _ hterm)

/-- The rules of the round, with the names that later rounds give, are the old rules with all names. -/
lemma exists_isolated_iff {r : Rule} : (∃ o ∈ g₁.rules, o.isolated names = r) ↔
    (∃ o ∈ g.rules, o.isolated (Function.update names t z) = r) ∨ ⟨z, [t]⟩ = r := by
  have hkept : ∀ o : Rule, o.mixes t = false → o.isolated names = o.isolated (Function.update names t z) := by
    intro o ho
    apply Rule.isolated_congr
    intro hlength s hs
    rw [Function.update_of_ne]
    rintro rfl
    simp [Rule.mixes_iff.mpr ⟨hlength, hs⟩] at ho
  have hchanged : ∀ o : Rule, o.mixes t = true →
      (o.substitute t z).isolated names = o.isolated (Function.update names t z) := by
    intro o ho
    rw [Rule.isolated_substitute (Rule.mixes_iff.mp ho).1]
    apply Rule.isolated_congr
    intro _ s _
    by_cases hst : s = t
    · rw [if_pos hst, hst, Function.update_self, h.name_self hstep]
    · rw [if_neg hst, Function.update_of_ne hst]
  have hname : (⟨z, [t]⟩ : Rule).isolated names = ⟨z, [t]⟩ := by simp [Rule.isolated]
  rw [hstep.rules_eq]
  constructor
  · rintro ⟨o, ho, rfl⟩
    rcases mem_isolatedRules.mp ho with ⟨ho, hmix⟩ | rfl | ⟨p, hp, hmix, rfl⟩
    · exact .inl ⟨o, ho, (hkept o hmix).symm⟩
    · exact .inr hname.symm
    · exact .inl ⟨p, hp, (hchanged p hmix).symm⟩
  · rintro (⟨o, ho, rfl⟩ | rfl)
    · cases hmix : o.mixes t with
      | false => exact ⟨o, mem_isolatedRules.mpr (.inl ⟨ho, hmix⟩), hkept o hmix⟩
      | true => exact ⟨o.substitute t z, mem_isolatedRules.mpr (.inr (.inr ⟨o, ho, hmix, rfl⟩)), hchanged o hmix⟩
    · exact ⟨⟨z, [t]⟩, mem_isolatedRules.mpr (.inr (.inl rfl)), hname⟩

lemma of_step (ht : t ∈ g.mixedTerminals) : Isolated (Function.update names t z) g g' := by
  constructor
  · exact h.start_eq.trans hstep.start_eq
  · exact h.terminals_eq.trans hstep.terminals_eq
  · intro u hu
    by_cases hut : u = t
    · rw [hut, Function.update_self]
      exact hstep.fresh
    · rw [Function.update_of_ne hut]
      exact (h.name_new hstep hu hut).1
  · intro u hu v hv heq
    by_cases hut : u = t <;> by_cases hvt : v = t
    · rw [hut, hvt]
    · rw [hut, Function.update_self, Function.update_of_ne hvt] at heq
      exact absurd heq.symm (h.name_new hstep hv hvt).2
    · rw [hvt, Function.update_self, Function.update_of_ne hut] at heq
      exact absurd heq (h.name_new hstep hu hut).2
    · rw [Function.update_of_ne hut, Function.update_of_ne hvt] at heq
      exact h.name_inj u (hstep.mem_mixedTerminals.mpr ⟨hu, hut⟩) v (hstep.mem_mixedTerminals.mpr ⟨hv, hvt⟩) heq
  · intro s hs
    have hst : s ≠ t := fun heq => hs (heq ▸ ht)
    rw [Function.update_of_ne hst]
    exact h.name_other s fun hmem => hs (hstep.mem_mixedTerminals.mp hmem).1
  · intro n
    rw [hstep.exists_name_iff ht names (P := fun _ name => name = n), h.mem_nonterminals, hstep.nonterminals_eq,
      List.mem_append, List.mem_singleton, or_assoc, eq_comm (a := n)]
  · intro r
    rw [hstep.exists_name_iff ht names (P := fun u name => ⟨name, [u]⟩ = r), h.mem_rules, h.exists_isolated_iff hstep,
      or_assoc]

end Step

end Isolated

lemma Consistent.succeeds_isolateTerminals_exactly (hg : g.Consistent) :
    Succeeds isolateTerminals g fun _ g' => g'.Consistent ∧ ∃ names, Isolated names g g' := by
  apply Succeeds.internal
  apply Succeeds.discard
  apply (hg.succeeds_isolateMixed (fun _ => Relation.ReflTransGen
    (fun h h' => ∃ t z, t ∈ h.mixedTerminals ∧ IsolationStep t z h h') g) .refl
    fun past t z h h' ht hround hrun => hrun.tail ⟨t, z, ht, hround⟩).mono
  rintro _ g' ⟨hg', hrun, hnone⟩
  clear hg
  refine ⟨hg', ?_⟩
  -- From the last round backwards: the names of later rounds are new to the rules of an earlier one.
  induction hrun using Relation.ReflTransGen.head_induction_on with
  | refl => exact ⟨id, .refl (mixedTerminals_eq_nil (hg'.terminalsAlone hnone))⟩
  | head hround _ ih =>
    obtain ⟨t, z, ht, hround⟩ := hround
    obtain ⟨names, hnames⟩ := ih
    exact ⟨_, hnames.of_step hround ht⟩

/-! ### Names for the rests of right sides -/

/-- The rests that splitting cuts off a right side. -/
def cuts : List Symbol → List (List Symbol)
  | [] => []
  | _ :: rest => if 2 ≤ rest.length then rest :: cuts rest else []

/-- The rules that take the place of one rule, given the names of the rests that are cut off. -/
def chain (names : List Symbol → Symbol) : Symbol → List Symbol → List Rule
  | left, [] => [⟨left, []⟩]
  | left, s :: rest =>
    if 2 ≤ rest.length then ⟨left, [s, names rest]⟩ :: chain names (names rest) rest else [⟨left, s :: rest⟩]

variable {r o : Rule} {s left : Symbol} {rest v w : List Symbol}

lemma isSuffix_of_mem_cuts (hv : v ∈ cuts w) : v <:+ w ∧ v.length < w.length := by
  induction w with
  | nil => cases hv
  | cons s rest ih =>
    rw [cuts] at hv
    split_ifs at hv
    · rcases List.mem_cons.mp hv with rfl | hv
      · exact ⟨List.suffix_cons _ _, by simp⟩
      · obtain ⟨hsuffix, hlength⟩ := ih hv
        exact ⟨hsuffix.trans (List.suffix_cons _ _), by simp only [List.length_cons]; omega⟩
    · cases hv

lemma length_cuts (w : List Symbol) : (cuts w).length = w.length - 2 := by
  induction w with
  | nil => rfl
  | cons s rest ih =>
    rw [cuts, List.length_cons]
    split_ifs
    · rw [List.length_cons, ih]
      omega
    · rw [List.length_nil]
      omega

lemma chain_of_short (names : List Symbol → Symbol) (hshort : w.length ≤ 2) : chain names left w = [⟨left, w⟩] := by
  match w with
  | [] => rfl
  | s :: rest =>
    rw [List.length_cons] at hshort
    rw [chain, if_neg (by omega)]

lemma chain_congr {names names' : List Symbol → Symbol} (h : ∀ v ∈ cuts w, names v = names' v) (left : Symbol) :
    chain names left w = chain names' left w := by
  induction w generalizing left with
  | nil => rfl
  | cons s rest ih =>
    rw [cuts] at h
    rw [chain, chain]
    split_ifs at h ⊢
    · obtain ⟨hrest, h⟩ := List.forall_mem_cons.mp h
      rw [hrest, ih h]
    · rfl

/-- The grammar after splitting, given for every rule the names of the rests that are cut off it. -/
structure Split (names : Rule → List Symbol → Symbol) (g g' : Grammar) : Prop where
  start_eq : g'.start = g.start
  terminals_eq : g'.terminals = g.terminals
  name_fresh : ∀ r ∈ g.rules, ∀ v ∈ cuts r.right, names r v ∉ g.symbols
  name_inj : ∀ r ∈ g.rules, ∀ v ∈ cuts r.right, ∀ o ∈ g.rules, ∀ w ∈ cuts o.right,
    names r v = names o w → r = o ∧ v = w
  mem_nonterminals : ∀ n, n ∈ g'.nonterminals ↔
    n ∈ g.nonterminals ∨ ∃ r ∈ g.rules, ∃ v ∈ cuts r.right, names r v = n
  mem_rules : ∀ o, o ∈ g'.rules ↔ ∃ r ∈ g.rules, o ∈ chain (names r) r.left r.right

namespace Split

variable {names : Rule → List Symbol → Symbol}

lemma refl (h : g.RulesShort) (names : Rule → List Symbol → Symbol) : Split names g g := by
  have hcuts : ∀ r ∈ g.rules, cuts r.right = [] := by
    intro r hr
    have hlength := h r hr
    rw [← List.length_eq_zero_iff, length_cuts]
    omega
  have hchain : ∀ r ∈ g.rules, chain (names r) r.left r.right = [r] := by
    intro r hr
    exact chain_of_short (names r) (h r hr)
  constructor
  · rfl
  · rfl
  · intro r hr v hv
    simp [hcuts r hr] at hv
  · intro r hr v hv
    simp [hcuts r hr] at hv
  · intro n
    refine ⟨.inl, ?_⟩
    rintro (hn | ⟨r, hr, v, hv, -⟩)
    · exact hn
    · simp [hcuts r hr] at hv
  · intro o
    constructor
    · intro ho
      exact ⟨o, ho, by simp [hchain o ho]⟩
    · rintro ⟨r, hr, ho⟩
      rw [hchain r hr, List.mem_singleton] at ho
      exact ho ▸ hr

/-- The names of all rests, if a round gives one and later rounds give the others. -/
def nameRest (names : Rule → List Symbol → Symbol) (r : Rule) (rest : List Symbol) (z : Symbol) (o : Rule)
    (v : List Symbol) : Symbol :=
  if o = r then if v = rest then z else names ⟨z, rest⟩ v else names o v

lemma nameRest_self : nameRest names r rest z r rest = z := by
  simp [nameRest]

lemma nameRest_of_mem_cuts (hv : v ∈ cuts rest) : nameRest names r rest z r v = names ⟨z, rest⟩ v := by
  have hne : v ≠ rest := by
    rintro rfl
    exact lt_irrefl _ (isSuffix_of_mem_cuts hv).2
  rw [nameRest, if_pos rfl, if_neg hne]

lemma nameRest_of_ne (h : o ≠ r) : nameRest names r rest z o = names o := by
  funext v
  rw [nameRest, if_neg h]

section Step

variable (hstep : SplitStep r s rest z g g₁) (hlong : 2 < r.right.length) (h : Split names g₁ g')

include hstep hlong

lemma cuts_of_step : cuts r.right = rest :: cuts rest := by
  rw [hstep.right_eq, List.length_cons] at hlong
  rw [hstep.right_eq, cuts, if_pos (by omega)]

lemma chain_of_step : chain (nameRest names r rest z r) r.left r.right =
    ⟨r.left, [s, z]⟩ :: chain (names ⟨z, rest⟩) z rest := by
  rw [hstep.right_eq, List.length_cons] at hlong
  rw [hstep.right_eq, chain, if_pos (by omega), nameRest_self]
  congr 1
  apply chain_congr
  intro v hv
  exact nameRest_of_mem_cuts hv

variable (names) in
/-- A rest is cut off by the round, or else by a later round off a rule that the round leaves. -/
lemma cut_cases (ho : o ∈ g.rules) (hv : v ∈ cuts o.right) :
    (o = r ∧ v = rest) ∨ ∃ p ∈ g₁.rules, v ∈ cuts p.right ∧ nameRest names r rest z o v = names p v ∧
      p = if o = r then ⟨z, rest⟩ else o := by
  by_cases hor : o = r
  · rw [hor, cuts_of_step hstep hlong] at hv
    rcases List.mem_cons.mp hv with hv | hv
    · exact .inl ⟨hor, hv⟩
    · refine .inr ⟨⟨z, rest⟩, hstep.mem_rules.mpr (.inr (.inr rfl)), hv, ?_, (if_pos hor).symm⟩
      rw [hor, nameRest_of_mem_cuts hv]
  · refine .inr ⟨o, hstep.mem_rules.mpr (.inl ⟨ho, hor⟩), hv, ?_, (if_neg hor).symm⟩
    rw [nameRest_of_ne hor]

include h

omit hlong in
lemma name_rest_new {p : Rule} (hp : p ∈ g₁.rules) (hv : v ∈ cuts p.right) :
    names p v ∉ g.symbols ∧ names p v ≠ z := by
  have hfresh := h.name_fresh p hp v hv
  rwa [hstep.mem_symbols, not_or] at hfresh

lemma name_rest_inj {w : List Symbol} {q : Rule} (ho : o ∈ g.rules) (hv : v ∈ cuts o.right) (hq : q ∈ g.rules)
    (hw : w ∈ cuts q.right) (heq : nameRest names r rest z o v = nameRest names r rest z q w) : o = q ∧ v = w := by
  rcases cut_cases names hstep hlong ho hv with ⟨rfl, rfl⟩ | ⟨p, hp, hvp, hname, hpo⟩ <;>
    rcases cut_cases names hstep hlong hq hw with ⟨rfl, rfl⟩ | ⟨p', hp', hwp', hname', hpq⟩
  · exact ⟨rfl, rfl⟩
  · rw [nameRest_self, hname'] at heq
    exact absurd heq.symm (h.name_rest_new hstep hp' hwp').2
  · rw [nameRest_self, hname] at heq
    exact absurd heq (h.name_rest_new hstep hp hvp).2
  · rw [hname, hname'] at heq
    obtain ⟨hpp', rfl⟩ := h.name_inj p hp v hvp p' hp' w hwp' heq
    refine ⟨?_, rfl⟩
    have hnew : ∀ k ∈ g.rules, k ≠ ⟨z, rest⟩ := fun k hk hkz => hstep.left_ne hk (congrArg Rule.left hkz)
    rw [hpo, hpq] at hpp'
    split_ifs at hpp' with hor hqr hqr
    · rw [hor, hqr]
    · exact absurd hpp'.symm (hnew q hq)
    · exact absurd hpp' (hnew o ho)
    · exact hpp'

lemma of_step : Split (nameRest names r rest z) g g' := by
  constructor
  · exact h.start_eq.trans hstep.start_eq
  · exact h.terminals_eq.trans hstep.terminals_eq
  · intro o ho v hv
    rcases cut_cases names hstep hlong ho hv with ⟨rfl, rfl⟩ | ⟨p, hp, hvp, hname, -⟩
    · rw [nameRest_self]
      exact hstep.fresh
    · rw [hname]
      exact (h.name_rest_new hstep hp hvp).1
  · intro o ho v hv q hq w hw heq
    exact h.name_rest_inj hstep hlong ho hv hq hw heq
  · intro n
    rw [h.mem_nonterminals, hstep.nonterminals_eq, List.mem_append, List.mem_singleton, or_assoc]
    apply or_congr_right
    constructor
    · rintro (rfl | ⟨p, hp, v, hv, rfl⟩)
      · exact ⟨r, hstep.rule_mem, rest, by simp [cuts_of_step hstep hlong], nameRest_self⟩
      · rcases hstep.mem_rules.mp hp with ⟨hp, hne⟩ | rfl | rfl
        · exact ⟨p, hp, v, hv, by rw [nameRest_of_ne hne]⟩
        · cases hv
        · refine ⟨r, hstep.rule_mem, v, ?_, nameRest_of_mem_cuts hv⟩
          rw [cuts_of_step hstep hlong]
          exact List.mem_cons_of_mem _ hv
    · rintro ⟨o, ho, v, hv, rfl⟩
      rcases cut_cases names hstep hlong ho hv with ⟨rfl, rfl⟩ | ⟨p, hp, hvp, hname, -⟩
      · exact .inl nameRest_self
      · exact .inr ⟨p, hp, v, hvp, hname.symm⟩
  · intro o
    rw [h.mem_rules]
    constructor
    · rintro ⟨p, hp, ho⟩
      rcases hstep.mem_rules.mp hp with ⟨hp, hne⟩ | rfl | rfl
      · exact ⟨p, hp, by rwa [nameRest_of_ne hne]⟩
      · refine ⟨r, hstep.rule_mem, ?_⟩
        rw [chain_of_step hstep hlong, List.mem_singleton.mp ho]
        exact List.mem_cons_self
      · refine ⟨r, hstep.rule_mem, ?_⟩
        rw [chain_of_step hstep hlong]
        exact List.mem_cons_of_mem _ ho
    · rintro ⟨p, hp, ho⟩
      by_cases hpr : p = r
      · rw [hpr, chain_of_step hstep hlong] at ho
        rcases List.mem_cons.mp ho with rfl | ho
        · exact ⟨_, hstep.mem_rules.mpr (.inr (.inl rfl)), List.mem_singleton_self _⟩
        · exact ⟨_, hstep.mem_rules.mpr (.inr (.inr rfl)), ho⟩
      · rw [nameRest_of_ne hpr] at ho
        exact ⟨p, hstep.mem_rules.mpr (.inl ⟨hp, hpr⟩), ho⟩

end Step

end Split

lemma Consistent.succeeds_splitRules_exactly (hg : g.Consistent) :
    Succeeds splitRules g fun _ g' => g'.Consistent ∧ ∃ names, Split names g g' := by
  apply Succeeds.internal
  apply Succeeds.discard
  apply (hg.succeeds_splitLong (fun _ => Relation.ReflTransGen
    (fun h h' => ∃ r s rest z, 2 < r.right.length ∧ SplitStep r s rest z h h') g) .refl
    fun past r s rest z h h' hlong hround hrun => hrun.tail ⟨r, s, rest, z, hlong, hround⟩).mono
  rintro _ g' ⟨hg', hrun, hnone⟩
  clear hg
  refine ⟨hg', ?_⟩
  induction hrun using Relation.ReflTransGen.head_induction_on with
  | refl => exact ⟨_, .refl (rulesShort hnone) fun r _ => r.left⟩
  | head hround _ ih =>
    obtain ⟨r, s, rest, z, hlong, hround⟩ := hround
    obtain ⟨names, hnames⟩ := ih
    exact ⟨_, hnames.of_step hround hlong⟩

end Grammar

end ContextFree

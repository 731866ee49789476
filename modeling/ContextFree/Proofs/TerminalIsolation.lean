import ContextFree.Proofs.ConsistentEdits
import ContextFree.Proofs.FreshSymbols
import ContextFree.Proofs.StageConditions

/-!
# Isolated terminals

One round of isolation gives a terminal a new name and puts the name in its place on all right sides of two or
more symbols; the other rules stay. The name stands for the terminal, so the round changes no language, and one
terminal less shares a right side. At the end terminals stand alone.
-/

namespace ContextFree

/-- The symbol shares the right side of the rule with an occurrence of some symbol. -/
def Rule.mixes (t : Symbol) (r : Rule) : Bool :=
  2 ≤ r.right.length && r.uses t

namespace Rule

variable {r o : Rule} {t z : Symbol}

lemma mixes_iff : r.mixes t = true ↔ 2 ≤ r.right.length ∧ t ∈ r.right := by
  simp [mixes, uses]

lemma mem_substitute (hr : t ∈ r.right) : z ∈ (r.substitute t z).right :=
  List.mem_map.mpr ⟨t, hr, if_pos rfl⟩

lemma flatMap_standFor_substitute (hr : z ∉ r.right) :
    (r.substitute t z).right.flatMap (standFor z [t]) = r.right := by
  have hback : ∀ u : List Symbol, z ∉ u →
      (u.map fun s => if s = t then z else s).flatMap (standFor z [t]) = u := by
    intro u hu
    induction u with
    | nil => rfl
    | cons s u ih =>
      obtain ⟨hs, hu⟩ := List.ne_and_not_mem_of_not_mem_cons hu
      rw [List.map_cons, List.flatMap_cons, ih hu]
      by_cases hst : s = t
      · simp [hst]
      · simp [hst, standFor_of_ne hs.symm]
  exact hback r.right hr

lemma substitute_inj (hr : z ∉ r.right) (ho : z ∉ o.right) (h : r.substitute t z = o.substitute t z) :
    r = o := by
  ext1
  · exact (congrArg Rule.left h :)
  · rw [← flatMap_standFor_substitute (t := t) hr, h, flatMap_standFor_substitute ho]

end Rule

namespace Grammar

variable {g : Grammar} {t : Symbol}

lemma Consistent.succeeds_replaceRules {f : Rule → Rule} {rs : List Rule} (hg : g.Consistent) (hrs : rs.Nodup)
    (hmem : ∀ r ∈ rs, r ∈ g.rules) (hnew : ∀ r ∈ rs, f r ∉ g.rules)
    (hinj : ∀ r ∈ rs, ∀ o ∈ rs, f r = f o → r = o) (hleft : ∀ r ∈ rs, (f r).left ∈ g.nonterminals)
    (hright : ∀ r ∈ rs, ∀ s ∈ (f r).right, s ∈ g.symbols) :
    Succeeds (rs.forM fun r => do insertRule (f r); eraseRule r) g fun _ g' => g'.Consistent ∧
      g'.contents = g.contents.withRules (g.rules.filter (!rs.contains ·) ++ rs.map f) := by
  refine succeeds_batch (fun done => g.contents.withRules (g.rules.filter (!done.contains ·) ++ done.map f)) hg hrs
    (by simp [contents, Contents.withRules]) ?_
  intro done r g' hsub hr hdone hg' hc
  have hrules : g'.rules = g.rules.filter (!done.contains ·) ++ done.map f := congrArg Contents.rules hc
  have hnon : g'.nonterminals = g.nonterminals := congrArg Contents.nonterminals hc
  have hsym : g'.symbols = g.symbols := symbols_eq (congrArg Contents.terminals hc) hnon
  have hfne : ∀ o ∈ rs, f o ≠ r := fun o ho h => hnew o ho (h ▸ hmem r hr)
  have hnew' : f r ∉ g'.rules := by
    rw [hrules, List.mem_append, List.mem_filter, List.mem_map]
    rintro (h | ⟨o, ho, h⟩)
    · exact hnew r hr h.1
    · exact hdone (hinj o (hsub ho) r hr h ▸ ho)
  refine Succeeds.bind (hg'.succeeds_insertRule (hnon ▸ hleft r hr) (hsym ▸ hright r hr) hnew') ?_
  rintro _ g₁ ⟨hg₁, hc₁⟩
  have hrules₁ : g₁.rules = g'.rules ++ [f r] := congrArg Contents.rules hc₁
  refine (hg₁.succeeds_eraseRule (by simp [hrules₁, hrules, hmem r hr, hdone])).mono ?_
  rintro _ g₂ ⟨hg₂, hc₂⟩
  have hkept : (done.map f ++ [f r]).filter (· != r) = (done ++ [r]).map f := by
    rw [← List.map_singleton, ← List.map_append, List.filter_eq_self]
    intro p hp
    obtain ⟨o, ho, rfl⟩ := List.mem_map.mp hp
    have ho' : o ∈ rs := (List.mem_append.mp ho).elim (@hsub o) fun h => List.mem_singleton.mp h ▸ hr
    exact bne_iff_ne.mpr (hfne o ho')
  refine ⟨hg₂, ?_⟩
  rw [hc₂, hc₁, hc, hrules₁, hrules, List.append_assoc, List.filter_append, filter_not_contains_concat, hkept]
  rfl

/-- The rules after a terminal got a name. -/
def isolatedRules (g : Grammar) (t z : Symbol) : List Rule :=
  g.rules.filter (!Rule.mixes t ·) ++ ⟨z, [t]⟩ :: (g.rules.filter (Rule.mixes t)).map (·.substitute t z)

lemma mem_isolatedRules {z : Symbol} {r : Rule} :
    r ∈ g.isolatedRules t z ↔ (r ∈ g.rules ∧ r.mixes t = false) ∨ r = ⟨z, [t]⟩ ∨
      ∃ o ∈ g.rules, o.mixes t = true ∧ r = o.substitute t z := by
  simp [isolatedRules, eq_comm (b := r), and_assoc]

/-- One round: a terminal gets a name. -/
structure IsolationStep (t z : Symbol) (g g' : Grammar) : Prop
    extends NamingStep z g.start (g.isolatedRules t z) g g' where
  terminal_mem : t ∈ g.terminals

lemma Consistent.succeeds_isolateTerminal (hg : g.Consistent) (ht : t ∈ g.terminals) :
    Succeeds (isolateTerminal t) g fun _ g' => g'.Consistent ∧ ∃ z, IsolationStep t z g g' := by
  refine Succeeds.bind hg.succeeds_insertFresh ?_
  rintro z g₁ ⟨-, hz, hg₁, hc₁⟩
  have hterm₁ : g₁.terminals = g.terminals := congrArg Contents.terminals hc₁
  have hnon₁ : g₁.nonterminals = g.nonterminals ++ [z] := congrArg Contents.nonterminals hc₁
  have hrules₁ : g₁.rules = g.rules := congrArg Contents.rules hc₁
  have hzright : ∀ r ∈ g.rules, z ∉ r.right := fun r hr => hg.notMem_right_of_fresh hz hr
  have hzleft : ∀ r ∈ g.rules, r.left ≠ z := fun r hr => hg.left_ne_of_fresh hz hr
  refine Succeeds.bind (hg₁.succeeds_insertRule (r := ⟨z, [t]⟩) ?_ ?_ ?_) ?_
  · simp [hnon₁]
  · simp [symbols, hterm₁, ht]
  · rw [hrules₁]
    exact fun h => hzleft _ h rfl
  rintro _ g₂ ⟨hg₂, hc₂⟩
  rw [hc₁, hrules₁] at hc₂
  have hnon₂ : g₂.nonterminals = g.nonterminals ++ [z] := congrArg Contents.nonterminals hc₂
  have hrules₂ : g₂.rules = g.rules ++ [⟨z, [t]⟩] := congrArg Contents.rules hc₂
  have hsym₂ : ∀ s, s ∈ g.symbols ∨ s = z → s ∈ g₂.symbols := by
    intro s hs
    rw [symbols, hnon₂, show g₂.terminals = g.terminals from congrArg Contents.terminals hc₂]
    simpa [symbols, or_assoc] using hs
  have hfilter : g₂.rules.filter (Rule.mixes t) = g.rules.filter (Rule.mixes t) := by
    simp [hrules₂, Rule.mixes]
  apply Succeeds.get_bind
  change Succeeds ((g₂.rules.filter (Rule.mixes t)).forM _) g₂ _
  rw [hfilter]
  have hmixed : ∀ r ∈ g.rules.filter (Rule.mixes t), r ∈ g.rules ∧ t ∈ r.right := by
    intro r hr
    obtain ⟨hr, hmix⟩ := List.mem_filter.mp hr
    exact ⟨hr, (Rule.mixes_iff.mp hmix).2⟩
  refine (hg₂.succeeds_replaceRules (f := (·.substitute t z)) (hg.rules_nodup.filter _) ?_ ?_ ?_ ?_ ?_).mono ?_
  · exact fun r hr => by simp [hrules₂, (hmixed r hr).1]
  · intro r hr h
    rw [hrules₂, List.mem_append, List.mem_singleton] at h
    rcases h with h | h
    · exact hzright _ h (Rule.mem_substitute (hmixed r hr).2)
    · exact hzleft r (hmixed r hr).1 (congrArg Rule.left h)
  · exact fun r hr o ho h => Rule.substitute_inj (hzright r (hmixed r hr).1) (hzright o (hmixed o ho).1) h
  · exact fun r hr => by simpa [hnon₂] using .inl (hg.left_mem r (hmixed r hr).1)
  · intro r hr s hs
    obtain ⟨u, hu, rfl⟩ := List.mem_map.mp hs
    apply hsym₂
    by_cases hut : u = t
    · simp [hut]
    · simpa [hut] using .inl (hg.right_mem r (hmixed r hr).1 u hu)
  · rintro _ g₃ ⟨hg₃, hc₃⟩
    refine ⟨hg₃, z, ⟨hg, hz, ?_⟩, ht⟩
    have hkept : g.rules.filter (!(g.rules.filter (Rule.mixes t)).contains ·) =
        g.rules.filter (!Rule.mixes t ·) := by
      apply List.filter_congr
      intro r hr
      simp [hr]
    have hname : [⟨z, [t]⟩].filter (!(g.rules.filter (Rule.mixes t)).contains ·) = [⟨z, [t]⟩] := by
      simp [Rule.mixes]
    rw [hc₃, hc₂, hrules₂, List.filter_append, hkept, hname, List.append_assoc]
    rfl

namespace IsolationStep

variable {z s : Symbol} {g' : Grammar}

lemma terminal_ne (h : IsolationStep t z g g') : t ≠ z :=
  h.ne_fresh (List.mem_append_left _ h.terminal_mem)

lemma elaborates (h : IsolationStep t z g g') : Elaborates g g' := by
  refine h.toNamingStep.elaborates (e := [t]) ?_ ?_
  · intro r hr
    cases hmix : r.mixes t with
    | false => exact Derives.of_mem (mem_isolatedRules.mpr (.inl ⟨hr, hmix⟩))
    | true =>
      have hname : Derives (g.isolatedRules t z) [z] [t] :=
        Derives.of_mem (mem_isolatedRules.mpr (.inr (.inl rfl)))
      have hsub : Derives (g.isolatedRules t z) [r.left] (r.substitute t z).right :=
        Derives.of_mem (mem_isolatedRules.mpr (.inr (.inr ⟨r, hr, hmix, rfl⟩)))
      refine hsub.trans (Derives.map fun s _ => ?_)
      by_cases hst : s = t
      · simpa [hst] using hname
      · simpa [hst] using Derives.refl _ [s]
  · intro r hr
    rcases mem_isolatedRules.mp hr with ⟨hr, -⟩ | rfl | ⟨o, ho, -, rfl⟩
    · exact h.derives_standFor hr
    · rw [standFor_self, flatMap_standFor (by simpa using h.terminal_ne.symm)]
      exact .refl _ _
    · rw [Rule.flatMap_standFor_substitute (h.notMem_right ho)]
      change Derives g.rules (standFor z [t] o.left) o.right
      rw [standFor_of_ne (h.left_ne ho)]
      exact Derives.of_mem ho

lemma any_mixes (h : IsolationStep t z g g') (hs : s ≠ z) :
    g'.rules.any (Rule.mixes s) = (g.rules.any (Rule.mixes s) && s != t) := by
  have hiff : (∃ r ∈ g.isolatedRules t z, r.mixes s = true) ↔ (∃ r ∈ g.rules, r.mixes s = true) ∧ s ≠ t := by
    constructor
    · rintro ⟨r, hr, hmix⟩
      rcases mem_isolatedRules.mp hr with ⟨hr, hnot⟩ | rfl | ⟨o, ho, hot, rfl⟩
      · exact ⟨⟨r, hr, hmix⟩, fun e => by simp [e, hnot] at hmix⟩
      · simp [Rule.mixes] at hmix
      · obtain ⟨hlength, hmem⟩ := Rule.mixes_iff.mp hmix
        obtain ⟨u, hu, hus⟩ := List.mem_map.mp hmem
        by_cases hut : u = t
        · rw [if_pos hut] at hus
          exact absurd hus.symm hs
        · rw [if_neg hut] at hus
          subst hus
          exact ⟨⟨o, ho, Rule.mixes_iff.mpr ⟨by simpa [Rule.substitute] using hlength, hu⟩⟩, hut⟩
    · rintro ⟨⟨r, hr, hmix⟩, hst⟩
      cases hrt : r.mixes t with
      | false => exact ⟨r, mem_isolatedRules.mpr (.inl ⟨hr, hrt⟩), hmix⟩
      | true =>
        obtain ⟨hlength, hmem⟩ := Rule.mixes_iff.mp hmix
        refine ⟨r.substitute t z, mem_isolatedRules.mpr (.inr (.inr ⟨r, hr, hrt, rfl⟩)), ?_⟩
        refine Rule.mixes_iff.mpr ⟨by simpa [Rule.substitute] using hlength, ?_⟩
        exact List.mem_map.mpr ⟨s, hmem, if_neg hst⟩
  rw [h.rules_eq, Bool.eq_iff_iff]
  simpa using hiff

end IsolationStep

def mixedTerminals (g : Grammar) : List Symbol :=
  g.terminals.filter fun t => g.rules.any (Rule.mixes t)

lemma mem_mixedTerminals_iff : t ∈ g.mixedTerminals ↔
    t ∈ g.terminals ∧ ∃ r ∈ g.rules, 2 ≤ r.right.length ∧ t ∈ r.right := by
  rw [mixedTerminals, List.mem_filter, List.any_eq_true]
  simp only [Rule.mixes_iff]

lemma IsolationStep.mixedTerminals_eq {z : Symbol} {g' : Grammar} (h : IsolationStep t z g g') :
    g'.mixedTerminals = g.mixedTerminals.filter (· != t) := by
  unfold mixedTerminals
  rw [h.terminals_eq, List.filter_filter]
  apply List.filter_congr
  intro s hs
  rw [h.any_mixes (h.ne_fresh (List.mem_append_left _ hs)), Bool.and_comm]

lemma Consistent.mem_mixedTerminals (hg : g.Consistent) (h : g.mixedTerminal? = some t) :
    t ∈ g.mixedTerminals := by
  obtain ⟨r, hr, hfind⟩ := List.exists_of_findSome?_eq_some h
  split_ifs at hfind with hlength
  have ht := (hg.isTerminal_iff t).mp (List.find?_some hfind)
  exact mem_mixedTerminals_iff.mpr ⟨ht, r, hr, by omega, List.mem_of_find?_eq_some hfind⟩

lemma Consistent.terminalsAlone (hg : g.Consistent) (h : g.mixedTerminal? = none) : g.TerminalsAlone := by
  intro r hr hlength s hs hterm
  have hfind := List.findSome?_eq_none_iff.mp h r hr
  rw [if_neg (by omega), List.find?_eq_none] at hfind
  exact hfind s hs ((hg.isTerminal_iff s).mpr hterm)

lemma Consistent.succeeds_isolateMixed (hg : g.Consistent) (inv : List Symbol → Grammar → Prop)
    (hinv : inv [] g)
    (hstep : ∀ past t z h h', t ∈ h.mixedTerminals → IsolationStep t z h h' → inv past h →
      inv (past ++ [t]) h') :
    Succeeds isolateMixed g fun past g' => g'.Consistent ∧ inv past g' ∧ g'.mixedTerminal? = none := by
  apply Succeeds.get_bind
  refine (Succeeds.exhaust (fun past h => h.Consistent ∧ inv past h) (fun _ h => h.mixedTerminals.length)
    ?_ ⟨hg, hinv⟩ ?_).mono ?_
  · rintro past t h ⟨hh, hinv⟩ hfind
    have ht := hh.mem_mixedTerminals hfind
    refine (hh.succeeds_isolateTerminal (List.mem_filter.mp ht).1).mono ?_
    rintro _ h' ⟨hh', z, hround⟩
    refine ⟨⟨hh', hstep past t z h h' ht hround hinv⟩, ?_⟩
    rw [hround.mixedTerminals_eq, List.length_filter_lt_length_iff_exists]
    exact ⟨t, ht, by simp⟩
  · exact List.length_filter_le _ _
  · rintro past g' ⟨⟨hg', hinv'⟩, hfind⟩
    exact ⟨hg', hinv', hfind⟩

/-- Isolation ends with terminals alone and the languages as they were. -/
theorem Consistent.succeeds_isolateTerminals (hg : g.Consistent) :
    Succeeds isolateTerminals g fun _ g' => g'.Consistent ∧ g'.start = g.start ∧ Elaborates g g' ∧
      g'.mixedTerminal? = none := by
  refine Succeeds.internal (Succeeds.discard ?_)
  have hrun := hg.succeeds_isolateMixed (fun _ h => h.start = g.start ∧ Elaborates g h)
    ⟨rfl, .refl g⟩ fun past t z h h' _ hround hinv =>
      ⟨hround.start_eq.trans hinv.1, hinv.2.trans hround.elaborates⟩
  refine hrun.mono ?_
  rintro _ g' ⟨hg', ⟨hstart, helab⟩, hfind⟩
  exact ⟨hg', hstart, helab, hfind⟩

end Grammar

end ContextFree

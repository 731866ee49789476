import ContextFree.Proofs.Attainability
import ContextFree.Proofs.NewNames

/-!
# Reading names back

A name that isolation gives to a terminal is new, stands for this terminal alone and has one rule, which leads to it.
So the old rules can be had back: in the rules for old nonterminals, every name is read as the terminal it was given
to. Different old rules have become different rules, and none has been lost.
-/

namespace ContextFree

/-- The symbol that was given a name, if it is one of those named; anything else is read as itself. -/
def readName (names : Symbol → Symbol) (named : List Symbol) (s : Symbol) : Symbol :=
  (named.find? (names · = s)).getD s

/-- The rule with the names on its right side read back. -/
def Rule.readNames (names : Symbol → Symbol) (named : List Symbol) (r : Rule) : Rule :=
  ⟨r.left, r.right.map (readName names named)⟩

variable {names : Symbol → Symbol} {named : List Symbol} {r o : Rule} {s t : Symbol}

lemma readName_of_mem (hinj : ∀ u ∈ named, names u = names t → u = t) (ht : t ∈ named) :
    readName names named (names t) = t := by
  unfold readName
  cases hfind : named.find? (names · = names t) with
  | none => exact absurd (by simp) (List.find?_eq_none.mp hfind t ht)
  | some u =>
    have hu : names u = names t := by simpa using List.find?_some hfind
    exact hinj u (List.mem_of_find?_eq_some hfind) hu

lemma readName_of_forall_ne (hs : ∀ u ∈ named, names u ≠ s) : readName names named s = s := by
  have hnone : named.find? (names · = s) = none := by simpa using hs
  rw [readName, hnone, Option.getD_none]

lemma Rule.isolated_left : (r.isolated names).left = r.left := by
  unfold isolated
  split_ifs <;> rfl

namespace Grammar.Isolated

variable {g g' : Grammar} (h : Isolated names g g')

include h

lemma readName_old (hs : s ∈ g.symbols) : readName names g.mixedTerminals s = s := by
  apply readName_of_forall_ne
  rintro u hu rfl
  exact h.name_fresh u hu hs

lemma readName_name (hs : s ∈ g.symbols) : readName names g.mixedTerminals (names s) = s := by
  by_cases hmixed : s ∈ g.mixedTerminals
  · apply readName_of_mem _ hmixed
    intro u hu heq
    exact h.name_inj u hu s hmixed heq
  · rw [h.name_other s hmixed]
    exact h.readName_old hs

lemma name_notMem_nonterminals (ht : t ∈ g.mixedTerminals) : names t ∉ g.nonterminals :=
  fun hmem => h.name_fresh t ht (List.mem_append_right _ hmem)

lemma bijOn_names : Set.BijOn names {t | t ∈ g.mixedTerminals} {n | n ∈ g'.nonterminals ∧ n ∉ g.nonterminals} := by
  refine ⟨?_, ?_, ?_⟩
  · intro t ht
    exact ⟨(h.mem_nonterminals _).mpr (.inr ⟨t, ht, rfl⟩), h.name_notMem_nonterminals ht⟩
  · intro t ht u hu heq
    exact h.name_inj t ht u hu heq
  · rintro n ⟨hn, hnew⟩
    exact ((h.mem_nonterminals n).mp hn).resolve_left hnew

variable (hg : g.Consistent)

include hg

lemma readNames_isolated (ho : o ∈ g.rules) : (o.isolated names).readNames names g.mixedTerminals = o := by
  have hright := hg.right_mem o ho
  apply Rule.ext
  · exact Rule.isolated_left
  · change (o.isolated names).right.map (readName names g.mixedTerminals) = o.right
    unfold Rule.isolated
    split_ifs
    · rw [List.map_map]
      exact map_eq_self fun s hs => h.readName_name (hright s hs)
    · exact map_eq_self fun s hs => h.readName_old (hright s hs)

variable (hg' : g'.Consistent)

include hg'

lemma perm_isolated : (g'.rules.filter (·.left ∈ g.nonterminals)).Perm (g.rules.map (Rule.isolated names)) := by
  have hnodup : (g.rules.map (Rule.isolated names)).Nodup := by
    apply hg.rules_nodup.map_on
    intro o ho p hp heq
    rw [← h.readNames_isolated hg ho, heq, h.readNames_isolated hg hp]
  apply (List.perm_ext_iff_of_nodup (hg'.rules_nodup.filter _) hnodup).mpr
  intro r
  rw [List.mem_filter, List.mem_map, decide_eq_true_iff, h.mem_rules]
  constructor
  · rintro ⟨hr | ⟨t, ht, rfl⟩, hleft⟩
    · exact hr
    · exact absurd hleft (h.name_notMem_nonterminals ht)
  · rintro ⟨o, ho, rfl⟩
    rw [Rule.isolated_left]
    exact ⟨.inl ⟨o, ho, rfl⟩, hg.left_mem o ho⟩

lemma perm_readNames :
    ((g'.rules.filter (·.left ∈ g.nonterminals)).map (Rule.readNames names g.mixedTerminals)).Perm g.rules := by
  have hback : (g.rules.map (Rule.isolated names)).map (Rule.readNames names g.mixedTerminals) = g.rules := by
    rw [List.map_map]
    exact map_eq_self fun o ho => h.readNames_isolated hg ho
  have hperm := (h.perm_isolated hg hg').map (Rule.readNames names g.mixedTerminals)
  rwa [hback] at hperm

lemma rulesWithLeft_name (ht : t ∈ g.mixedTerminals) : g'.rulesWithLeft (names t) = [⟨names t, [t]⟩] := by
  apply eq_singleton_of_nodup (hg'.rules_nodup.filter _)
  intro r
  rw [List.mem_filter, decide_eq_true_iff, h.mem_rules]
  constructor
  · rintro ⟨⟨o, ho, rfl⟩ | ⟨u, hu, rfl⟩, hleft⟩
    · rw [Rule.isolated_left] at hleft
      exact absurd (hleft ▸ hg.left_mem o ho) (h.name_notMem_nonterminals ht)
    · rw [h.name_inj u hu t ht hleft]
  · rintro rfl
    exact ⟨.inr ⟨t, ht, rfl⟩, rfl⟩

end Grammar.Isolated

namespace Grammar

variable {g : Grammar}

/-- After isolation no terminal shares a right side. Every terminal that did so has a name of its own, which is a new
nonterminal with the terminal as its only rule, and there are no other new nonterminals. With the names read back, the
rules for old nonterminals are the old rules, one for one. Old nonterminals generate what they did. -/
theorem isolation_can_be_read_back (hg : g.Consistent) :
    ∃ (names : Symbol → Symbol) (g' : Grammar), isolateTerminals g = .ok () g' ∧
      g'.terminals = g.terminals ∧ g.nonterminals <+: g'.nonterminals ∧
      (∀ r ∈ g'.rules, 2 ≤ r.right.length → ∀ s ∈ r.right, s ∉ g'.terminals) ∧
      Set.BijOn names {t | t ∈ g.terminals ∧ ∃ r ∈ g.rules, 2 ≤ r.right.length ∧ t ∈ r.right}
        {n | n ∈ g'.nonterminals ∧ n ∉ g.nonterminals} ∧
      (∀ t ∈ g.mixedTerminals, names t ∉ g.symbols ∧ g'.rulesWithLeft (names t) = [⟨names t, [t]⟩]) ∧
      ((g'.rules.filter (·.left ∈ g.nonterminals)).map (Rule.readNames names g.mixedTerminals)).Perm g.rules ∧
      ∀ s ∈ g.nonterminals, ∀ w, g'.GeneratesFrom s w ↔ g.GeneratesFrom s w := by
  obtain ⟨_, g', hrun, ⟨hg', -, helab, hnone⟩, -, names, hnames⟩ :=
    hg.succeeds_isolateTerminals.and hg.succeeds_isolateTerminals_exactly
  have hbij := hnames.bijOn_names
  simp only [mem_mixedTerminals_iff] at hbij
  refine ⟨names, g', hrun, helab.terminals_eq, helab.isPrefix_nonterminals, hg'.terminalsAlone hnone, hbij, ?_,
    hnames.perm_readNames hg hg', helab.generatesFrom_iff⟩
  intro t ht
  exact ⟨hnames.name_fresh t ht, hnames.rulesWithLeft_name hg hg' ht⟩

/-- The terminals `a` and `b` share right sides, and `a` also stands alone. -/
def sharedTerminals : List Rule :=
  [⟨"S", ["a", "S", "b"]⟩, ⟨"S", ["a"]⟩, ⟨"T", ["a", "a"]⟩, ⟨"T", ["c"]⟩]

theorem isolation_of_sharedTerminals :
    ∃ g g' names, ofParts "S" ["a", "b", "c"] ["T"] sharedTerminals .standard = .ok g ∧
      isolateTerminals g = .ok () g' ∧ names "a" ≠ names "b" ∧
      g'.rulesWithLeft (names "a") = [⟨names "a", ["a"]⟩] ∧
      ((g'.rules.filter (·.left ∈ ["S", "T"])).map (Rule.readNames names ["a", "b"])).Perm sharedTerminals ∧
      g'.GeneratesFrom "S" ["a", "a", "b"] := by
  obtain ⟨g, hg, hcontents⟩ := ofParts_eq_ok "S" ["a", "b", "c"] ["T"] sharedTerminals .standard
    (by decide) (by decide) (by decide) (by decide) (by decide)
  obtain ⟨-, hterminals, hnonterminals, hrules, -⟩ := Contents.mk.inj hcontents
  have hmixed : g.mixedTerminals = ["a", "b"] := by
    rw [mixedTerminals, hterminals, hrules]
    decide
  have hrule : ∀ r ∈ sharedTerminals, Derives sharedTerminals [r.left] r.right := fun r hr => .of_mem hr
  have houter := hrule ⟨"S", ["a", "S", "b"]⟩ (by decide)
  have hinner := hrule ⟨"S", ["a"]⟩ (by decide)
  obtain ⟨names, g', hrun, -, -, -, hbij, hnamed, hback, hsame⟩ := isolation_can_be_read_back (.ofParts hg)
  have hinj := hbij.injOn
  rw [hterminals, hrules] at hinj
  rw [hmixed] at hnamed
  rw [hmixed, hnonterminals, hrules] at hback
  refine ⟨g, g', names, hg, hrun, ?_, (hnamed "a" (by decide)).2, hback, (hsame "S" ?_ _).mpr ?_⟩
  · intro heq
    have hab := hinj (by decide) (by decide) heq
    exact absurd hab (by decide)
  · rw [hnonterminals]
    decide
  · refine ⟨by simp [hterminals], ?_⟩
    rw [hrules]
    exact houter.trans (((Derives.refl _ ["a"]).append hinner).append (Derives.refl _ ["b"]))

end Grammar

end ContextFree

import ContextFree.Proofs.Renaming
import ContextFree.Proofs.Rounds

/-!
# Chains of split rules

Splitting replaces every rule by a chain of rules, one for each rest that it cuts off and one for what is left. The
rounds take the chains on in any order and in turns, but every round adds one rule and one nonterminal; so the chains
are all there is, and no two of them share a name. A name is the left side of one rule and occurs once on a right
side, and it can be read as the rest that it was given to, which undoes the splitting.
-/

namespace ContextFree.Grammar

variable {g g' : Grammar} {r o : Rule} {left s z : Symbol} {rest v w : List Symbol}

/-! ### One chain -/

section Chain

variable (names : List Symbol → Symbol)

lemma map_left_chain (left : Symbol) (w : List Symbol) :
    (chain names left w).map Rule.left = left :: (cuts w).map names := by
  induction w generalizing left with
  | nil => rfl
  | cons s rest ih =>
    rw [chain, cuts]
    split_ifs
    · rw [List.map_cons, List.map_cons, ih]
    · rfl

lemma length_chain (left : Symbol) (w : List Symbol) : (chain names left w).length = w.length - 2 + 1 := by
  have hlefts := congrArg List.length (map_left_chain names left w)
  rwa [List.length_map, List.length_cons, List.length_map, length_cuts] at hlefts

lemma perm_right_chain (left : Symbol) (w : List Symbol) :
    ((chain names left w).flatMap Rule.right).Perm (w ++ (cuts w).map names) := by
  induction w generalizing left with
  | nil => exact .refl _
  | cons s rest ih =>
    rw [chain, cuts]
    split_ifs
    · have hrest := (ih (names rest)).cons (names rest)
      exact (hrest.trans List.perm_middle.symm).cons s
    · simp

end Chain

/-! ### The number of rounds -/

lemma SplitStep.length_rules (h : SplitStep r s rest z g g') : g'.rules.length = g.rules.length + 1 := by
  have hpos := List.length_pos_of_mem h.rule_mem
  rw [h.rules_eq, ← h.consistent.rules_nodup.erase_eq_filter, List.length_append, List.length_erase_of_mem h.rule_mem]
  simp only [List.length_cons, List.length_nil]
  omega

lemma Consistent.succeeds_splitRules_counted (hg : g.Consistent) :
    Succeeds splitRules g fun _ g' => g'.rules.length = g.rules.length + g.splitCount ∧
      g'.nonterminals.length = g.nonterminals.length + g.splitCount := by
  refine Succeeds.internal (Succeeds.discard ?_)
  have hrun := hg.succeeds_splitLong (fun _ h => h.rules.length + h.splitCount = g.rules.length + g.splitCount ∧
    h.nonterminals.length + h.splitCount = g.nonterminals.length + g.splitCount) ⟨rfl, rfl⟩ ?_
  · apply hrun.mono
    rintro _ g' ⟨-, ⟨hrules, hnonterminals⟩, hnone⟩
    rw [(rulesShort hnone).splitCount_eq_zero] at hrules hnonterminals
    exact ⟨hrules, hnonterminals⟩
  · rintro _ r s rest z h h' hlong hround ⟨hrules, hnonterminals⟩
    have hcount := hround.splitCount_add_one hlong
    have hone := hround.length_rules
    rw [hround.nonterminals_eq, List.length_append, List.length_singleton]
    omega

/-! ### All chains -/

/-- The names of the rests that are cut off a rule, in the order of its chain. -/
def links (names : Rule → List Symbol → Symbol) (r : Rule) : List Symbol :=
  (cuts r.right).map (names r)

lemma length_links (names : Rule → List Symbol → Symbol) (r : Rule) : (links names r).length = r.right.length - 2 := by
  rw [links, List.length_map, length_cuts]

lemma mem_links {names : Rule → List Symbol → Symbol} :
    z ∈ g.rules.flatMap (links names) ↔ ∃ r ∈ g.rules, ∃ v ∈ cuts r.right, names r v = z := by
  simp [links]

namespace Split

variable {names : Rule → List Symbol → Symbol} (h : Split names g g') (hg : g.Consistent) (hg' : g'.Consistent)

include h

lemma link_fresh (hz : z ∈ g.rules.flatMap (links names)) : z ∉ g.symbols := by
  obtain ⟨r, hr, v, hv, rfl⟩ := mem_links.mp hz
  exact h.name_fresh r hr v hv

lemma mem_links_iff : z ∈ g.rules.flatMap (links names) ↔ z ∈ g'.nonterminals ∧ z ∉ g.nonterminals := by
  rw [h.mem_nonterminals, mem_links]
  constructor
  · intro hz
    exact ⟨.inr hz, fun hmem => h.link_fresh (mem_links.mpr hz) (List.mem_append_right _ hmem)⟩
  · rintro ⟨hz, hnew⟩
    exact hz.resolve_left hnew

include hg'

lemma perm_chains (hcount : g'.rules.length = g.rules.length + g.splitCount) :
    g'.rules.Perm (g.rules.flatMap fun r => chain (names r) r.left r.right) := by
  apply (hg'.rules_nodup.subperm ?_).perm_of_length_le
  · rw [List.length_flatMap, hcount, splitCount_eq]
    simp only [length_chain, List.sum_map_add]
    simp [add_comm]
  · intro o ho
    obtain ⟨r, hr, hmem⟩ := (h.mem_rules o).mp ho
    exact List.mem_flatMap.mpr ⟨r, hr, hmem⟩

lemma perm_nonterminals (hcount : g'.nonterminals.length = g.nonterminals.length + g.splitCount) :
    g'.nonterminals.Perm (g.nonterminals ++ g.rules.flatMap (links names)) := by
  apply (hg'.nonterminals_nodup.subperm ?_).perm_of_length_le
  · rw [List.length_append, List.length_flatMap, hcount, splitCount_eq]
    simp only [length_links]
    exact le_rfl
  · intro n hn
    rwa [List.mem_append, mem_links, ← h.mem_nonterminals]

end Split

variable {names : Rule → List Symbol → Symbol}

lemma perm_lefts (hperm : g'.rules.Perm (g.rules.flatMap fun r => chain (names r) r.left r.right)) :
    (g'.rules.map Rule.left).Perm (g.rules.map Rule.left ++ g.rules.flatMap (links names)) := by
  have hchains : (g.rules.flatMap fun r => chain (names r) r.left r.right).map Rule.left =
      g.rules.flatMap fun r => [r.left] ++ links names r := by
    rw [List.map_flatMap]
    simp only [map_left_chain]
    rfl
  have hlefts := hperm.map Rule.left
  rw [hchains] at hlefts
  apply hlefts.trans
  rw [← List.flatMap_pure_eq_map]
  exact (List.flatMap_append_perm _ _ _).symm

lemma perm_rights (hperm : g'.rules.Perm (g.rules.flatMap fun r => chain (names r) r.left r.right)) :
    (g'.rules.flatMap Rule.right).Perm (g.rules.flatMap Rule.right ++ g.rules.flatMap (links names)) := by
  have hrights := hperm.flatMap_right Rule.right
  rw [List.flatMap_assoc] at hrights
  apply hrights.trans
  apply (List.Perm.flatMap_left _ fun r _ => perm_right_chain (names r) r.left r.right).trans
  exact (List.flatMap_append_perm _ _ _).symm

lemma count_eq_one {l l' added : List Symbol} (hperm : l'.Perm (l ++ added)) (hadded : added.Nodup) (hl : z ∉ l)
    (hz : z ∈ added) : l'.count z = 1 := by
  rw [hperm.count_eq, List.count_append, List.count_eq_zero_of_not_mem hl, List.count_eq_one_of_mem hadded hz]

section Counting

variable (hg : g.Consistent) (hperm : g'.rules.Perm (g.rules.flatMap fun r => chain (names r) r.left r.right))
  (hnodup : (g.rules.flatMap (links names)).Nodup) (hz : z ∈ g.rules.flatMap (links names)) (hfresh : z ∉ g.symbols)

include hg hperm hnodup hz hfresh

lemma length_rulesWithLeft_link : (g'.rulesWithLeft z).length = 1 := by
  have hold : z ∉ g.rules.map Rule.left := by
    rw [List.mem_map]
    rintro ⟨r, hr, hleft⟩
    exact hg.left_ne_of_fresh hfresh hr hleft
  have hlefts := count_eq_one (perm_lefts hperm) hnodup hold hz
  rwa [List.count_eq_countP, List.countP_map, List.countP_eq_length_filter] at hlefts

lemma count_right_link : (g'.rules.flatMap Rule.right).count z = 1 := by
  have hold : z ∉ g.rules.flatMap Rule.right := by
    rw [List.mem_flatMap]
    rintro ⟨r, hr, hmem⟩
    exact hg.notMem_right_of_fresh hfresh hr hmem
  exact count_eq_one (perm_rights hperm) hnodup hold hz

end Counting

/-! ### Reading names back -/

/-- The rest that a name was given to; any other symbol is read as itself. -/
def readRest (names : Rule → List Symbol → Symbol) (g : Grammar) (s : Symbol) : List Symbol :=
  ((g.restKeys.find? fun k => names k.1 k.2 = s).map Prod.snd).getD [s]

section Reading

variable {read : Symbol → List Symbol} {name : List Symbol → Symbol}

lemma flatMap_read (hw : ∀ s ∈ w, read s = [s]) : w.flatMap read = w := by
  induction w with
  | nil => rfl
  | cons s rest ih =>
    obtain ⟨hs, hrest⟩ := List.forall_mem_cons.mp hw
    rw [List.flatMap_cons, hs, ih hrest, List.singleton_append]

lemma read_of_mem_chain (hold : ∀ s ∈ w, read s = [s]) (hname : ∀ v ∈ cuts w, read (name v) = v)
    (ho : o ∈ chain name left w) :
    (o.left = left ∧ o.right.flatMap read = w) ∨ ∃ v ∈ cuts w, o.left = name v ∧ o.right.flatMap read = v := by
  induction w generalizing left with
  | nil =>
    rw [chain, List.mem_singleton] at ho
    exact .inl (by simp [ho])
  | cons s rest ih =>
    rw [chain] at ho
    rw [cuts] at hname ⊢
    split_ifs at ho hname ⊢ with hlong
    · obtain ⟨hs, hold⟩ := List.forall_mem_cons.mp hold
      obtain ⟨hrest, hname⟩ := List.forall_mem_cons.mp hname
      rcases List.mem_cons.mp ho with rfl | ho
      · exact .inl ⟨rfl, by simp [hs, hrest]⟩
      · rcases ih hold hname ho with ⟨hleft, hright⟩ | ⟨v, hv, hleft, hright⟩
        · exact .inr ⟨rest, List.mem_cons_self, hleft, hright⟩
        · exact .inr ⟨v, List.mem_cons_of_mem _ hv, hleft, hright⟩
    · rw [List.mem_singleton] at ho
      exact .inl (by simp [ho, flatMap_read hold])

lemma read_first_of_chain {olds : List Symbol} (hleft : left ∈ olds) (hnew : ∀ v ∈ cuts w, name v ∉ olds)
    (hold : ∀ s ∈ w, read s = [s]) (hname : ∀ v ∈ cuts w, read (name v) = v) :
    ((chain name left w).filter (·.left ∈ olds)).map (fun o => ⟨o.left, o.right.flatMap read⟩) =
      [(⟨left, w⟩ : Rule)] := by
  obtain ⟨o, later, hchain, hfirst, hlater⟩ := List.map_eq_cons_iff.mp (map_left_chain name left w)
  have hright : o.right.flatMap read = w := by
    have ho : o ∈ chain name left w := by
      rw [hchain]
      exact List.mem_cons_self
    rcases read_of_mem_chain hold hname ho with ⟨-, hright⟩ | ⟨v, hv, hlink, -⟩
    · exact hright
    · rw [← hfirst, hlink] at hleft
      exact absurd hleft (hnew v hv)
  have hothers : later.filter (·.left ∈ olds) = [] := by
    rw [List.filter_eq_nil_iff]
    intro p hp
    have hlink : p.left ∈ (cuts w).map name := hlater ▸ List.mem_map_of_mem hp
    obtain ⟨v, hv, heq⟩ := List.mem_map.mp hlink
    simpa [← heq] using hnew v hv
  rw [hchain, List.filter_cons_of_pos (by simpa [hfirst] using hleft), hothers, List.map_singleton, hfirst, hright]

end Reading

namespace Split

variable (h : Split names g g')

include h

lemma readRest_old (hs : s ∈ g.symbols) : readRest names g s = [s] := by
  have hnone : g.restKeys.find? (fun k => names k.1 k.2 = s) = none := by
    rw [List.find?_eq_none]
    intro k hk
    obtain ⟨hr, hv⟩ := mem_restKeys.mp hk
    have hfresh := h.name_fresh _ hr _ hv
    simp only [decide_eq_true_eq]
    rintro rfl
    exact hfresh hs
  rw [readRest, hnone]
  rfl

lemma readRest_name (hr : r ∈ g.rules) (hv : v ∈ cuts r.right) : readRest names g (names r v) = v := by
  unfold readRest
  cases hfind : g.restKeys.find? fun k => names k.1 k.2 = names r v with
  | none =>
    exact absurd (by simp) (List.find?_eq_none.mp hfind (r, v) (mem_restKeys.mpr ⟨hr, hv⟩))
  | some k =>
    have hname : names k.1 k.2 = names r v := by simpa using List.find?_some hfind
    obtain ⟨hk, hcut⟩ := mem_restKeys.mp (List.mem_of_find?_eq_some hfind)
    exact (h.name_inj _ hk _ hcut _ hr _ hv hname).2

variable (hg : g.Consistent)

include hg

lemma readRest_left (ho : o ∈ g'.rules) (hnew : o.left ∉ g.nonterminals) :
    readRest names g o.left = o.right.flatMap (readRest names g) := by
  obtain ⟨r, hr, hchain⟩ := (h.mem_rules o).mp ho
  rcases read_of_mem_chain (fun s hs => h.readRest_old (hg.right_mem r hr s hs)) (fun v hv => h.readRest_name hr hv)
      hchain with ⟨hleft, -⟩ | ⟨v, hv, hleft, hright⟩
  · exact absurd (hleft ▸ hg.left_mem r hr) hnew
  · rw [hleft, hright, h.readRest_name hr hv]

lemma perm_readRests (hperm : g'.rules.Perm (g.rules.flatMap fun r => chain (names r) r.left r.right)) :
    ((g'.rules.filter (·.left ∈ g.nonterminals)).map fun o => ⟨o.left, o.right.flatMap (readRest names g)⟩).Perm
      g.rules := by
  apply ((hperm.filter _).map _).trans
  rw [List.filter_flatMap, List.map_flatMap]
  have hfirst : ∀ r ∈ g.rules, ((chain (names r) r.left r.right).filter (·.left ∈ g.nonterminals)).map
      (fun o => (⟨o.left, o.right.flatMap (readRest names g)⟩ : Rule)) = [r] := by
    intro r hr
    apply read_first_of_chain (hg.left_mem r hr)
    · intro v hv hmem
      exact h.name_fresh r hr v hv (List.mem_append_right _ hmem)
    · exact fun s hs => h.readRest_old (hg.right_mem r hr s hs)
    · exact fun v hv => h.readRest_name hr hv
  rw [List.flatMap_congr hfirst, List.flatMap_singleton']

end Split

/-- After splitting no right side has more than two symbols. Every rule has become a chain, which is the rule itself if
it was short and otherwise goes through as many new nonterminals as there are symbols above two. All these are
different; each has one rule and occurs once, and there are no others, nor other rules than those in the chains. Read
as what their rules lead to, they give the old rules back, one for one. Old nonterminals generate what they did. -/
theorem splitting_can_be_undone (hg : g.Consistent) :
    ∃ (names : Rule → List Symbol → Symbol) (rests : Symbol → List Symbol) (g' : Grammar),
      splitRules g = .ok () g' ∧ g'.terminals = g.terminals ∧ g.nonterminals <+: g'.nonterminals ∧
      (∀ r ∈ g'.rules, r.right.length ≤ 2) ∧ (∀ r ∈ g.rules, r.right.length ≤ 2 → r ∈ g'.rules) ∧
      g'.rules.Perm (g.rules.flatMap fun r => chain (names r) r.left r.right) ∧
      (∀ r ∈ g.rules, (links names r).length = r.right.length - 2) ∧ (g.rules.flatMap (links names)).Nodup ∧
      g'.nonterminals.Perm (g.nonterminals ++ g.rules.flatMap (links names)) ∧
      (∀ z ∈ g'.nonterminals, z ∉ g.nonterminals → z ∉ g.terminals ∧ (g'.rulesWithLeft z).length = 1 ∧
        (g'.rules.flatMap (·.right)).count z = 1) ∧
      g'.rules.length = g.rules.length + (g.rules.map fun r => r.right.length - 2).sum ∧
      g'.nonterminals.length = g.nonterminals.length + (g.rules.map fun r => r.right.length - 2).sum ∧
      (∀ s ∈ g.symbols, rests s = [s]) ∧
      (∀ r ∈ g'.rules, r.left ∉ g.nonterminals → rests r.left = r.right.flatMap rests) ∧
      ((g'.rules.filter (·.left ∈ g.nonterminals)).map fun r => ⟨r.left, r.right.flatMap rests⟩).Perm g.rules ∧
      ∀ s ∈ g.nonterminals, ∀ w, g'.GeneratesFrom s w ↔ g.GeneratesFrom s w := by
  obtain ⟨_, g', hrun, ⟨⟨hg', -, helab, -, hnone⟩, -, names, hsplit⟩, hrules, hnonterminals⟩ :=
    (hg.succeeds_splitRules.and hg.succeeds_splitRules_exactly).and hg.succeeds_splitRules_counted
  have hchains := hsplit.perm_chains hg' hrules
  have hnew := hsplit.perm_nonterminals hg' hnonterminals
  have hnodup : (g.rules.flatMap (links names)).Nodup :=
    (List.nodup_append'.mp (hnew.nodup_iff.mp hg'.nonterminals_nodup)).2.1
  refine ⟨names, readRest names g, g', hrun, helab.terminals_eq, helab.isPrefix_nonterminals, rulesShort hnone, ?_,
    hchains, fun r _ => length_links names r, hnodup, hnew, ?_, splitCount_eq g ▸ hrules,
    splitCount_eq g ▸ hnonterminals, fun s hs => hsplit.readRest_old hs, fun r hr => hsplit.readRest_left hg hr,
    hsplit.perm_readRests hg hchains, helab.generatesFrom_iff⟩
  · intro r hr hshort
    rw [hsplit.mem_rules]
    exact ⟨r, hr, by simp [chain_of_short (names r) hshort]⟩
  · intro z hz hold
    have hlink : z ∈ g.rules.flatMap (links names) := hsplit.mem_links_iff.mpr ⟨hz, hold⟩
    have hfresh := hsplit.link_fresh hlink
    exact ⟨fun hterm => hfresh (List.mem_append_left _ hterm),
      length_rulesWithLeft_link hg hchains hnodup hlink hfresh, count_right_link hg hchains hnodup hlink hfresh⟩

/-- The right side of the rule for `T` is also the end of the first right side for `S`. -/
def sharedTail : List Rule :=
  [⟨"S", ["a", "b", "T", "c"]⟩, ⟨"T", ["b", "T", "c"]⟩, ⟨"S", ["T", "T"]⟩, ⟨"T", []⟩]

theorem splitting_of_sharedTail :
    ∃ g g', ofParts "S" ["a", "b", "c"] ["T"] sharedTail .standard = .ok g ∧ splitRules g = .ok () g' ∧
      (∀ r ∈ g'.rules, r.right.length ≤ 2) ∧ ⟨"S", ["T", "T"]⟩ ∈ g'.rules ∧ g'.rules.length = 7 ∧
      g'.nonterminals.length = 5 ∧
      (∃ x y z, [x, y, z].Nodup ∧ g'.rules.Perm [⟨"S", ["a", x]⟩, ⟨x, ["b", y]⟩, ⟨y, ["T", "c"]⟩, ⟨"T", ["b", z]⟩,
        ⟨z, ["T", "c"]⟩, ⟨"S", ["T", "T"]⟩, ⟨"T", []⟩]) ∧
      g'.GeneratesFrom "S" ["a", "b", "c"] := by
  obtain ⟨g, hg, hcontents⟩ := ofParts_eq_ok "S" ["a", "b", "c"] ["T"] sharedTail .standard
    (by decide) (by decide) (by decide) (by decide) (by decide)
  obtain ⟨-, hterminals, hnonterminals, hrules, -⟩ := Contents.mk.inj hcontents
  obtain ⟨names, _, g', hrun, -, -, hshort, hkept, hchains, -, hnodup, -, -, hlength, hnumber, -, -, -, hsame⟩ :=
    splitting_can_be_undone (.ofParts hg)
  rw [hrules] at hkept hchains hnodup hlength hnumber
  rw [hnonterminals] at hnumber
  refine ⟨g, g', hg, hrun, hshort, hkept _ (by decide) (by decide), hlength, hnumber, ⟨_, _, _, hnodup, hchains⟩,
    (hsame "S" ?_ _).mpr ?_⟩
  · rw [hnonterminals]
    decide
  · have hrule : ∀ r ∈ sharedTail, Derives g.rules [r.left] r.right := fun r hr => .of_mem (hrules ▸ hr)
    have hlong := hrule ⟨"S", ["a", "b", "T", "c"]⟩ (by decide)
    have hempty := hrule ⟨"T", []⟩ (by decide)
    refine ⟨by simp [hterminals], ?_⟩
    exact hlong.trans (((Derives.refl _ ["a", "b"]).append hempty).append (Derives.refl _ ["c"]))

end ContextFree.Grammar

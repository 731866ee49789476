import ContextFree.Proofs.ConsistentEdits
import ContextFree.Proofs.Yields

/-!
# Dead ends

A nonterminal other than the start symbol is dead if each of its rules has a dead symbol on its right side; a
nonterminal without rules is dead at once. Removing nonterminals without rules again and again removes exactly
the dead ones, and with them the rules that mention one. None of these rules takes part in the derivation of a
sequence of terminals.
-/

namespace ContextFree

def Rule.avoids (gone : List Symbol) (r : Rule) : Bool :=
  r.symbols.all fun s => !gone.contains s

lemma Rule.avoids_iff {gone : List Symbol} {r : Rule} :
    r.avoids gone = true ↔ r.left ∉ gone ∧ ∀ s ∈ r.right, s ∉ gone := by
  simp [avoids, mem_symbols]

lemma Rule.avoids_append {gone : List Symbol} {n : Symbol} {r : Rule} (hr : r.left ≠ n) :
    r.avoids (gone ++ [n]) = (!r.uses n && r.avoids gone) := by
  rw [Bool.eq_iff_iff, Bool.and_eq_true, avoids_iff, avoids_iff]
  simp only [List.mem_append, List.mem_singleton, not_or, uses, Bool.not_eq_true', ← Bool.not_eq_true,
    List.contains_iff_mem]
  constructor
  · rintro ⟨⟨hleft, -⟩, hright⟩
    exact ⟨fun hn => (hright n hn).2 rfl, hleft, fun s hs => (hright s hs).1⟩
  · rintro ⟨hn, hleft, hright⟩
    exact ⟨⟨hleft, hr⟩, fun s hs => ⟨hright s hs, fun h => hn (h ▸ hs)⟩⟩

namespace Grammar

variable {g g' : Grammar} {r : Rule} {n s : Symbol} {gone found : List Symbol}

/-- The nonterminals other than the start symbol whose rules all have a symbol of this kind on the right side. -/
inductive Dead (g : Grammar) : Symbol → Prop where
  | intro {n : Symbol} (mem : n ∈ g.nonterminals) (ne_start : n ≠ g.start)
      (block : ∀ r ∈ g.rules, r.left = n → Symbol) (block_mem : ∀ r hr hn, block r hr hn ∈ r.right)
      (block_dead : ∀ r hr hn, Dead g (block r hr hn)) : Dead g n

namespace Dead

lemma of_forall (mem : n ∈ g.nonterminals) (ne_start : n ≠ g.start)
    (h : ∀ r ∈ g.rules, r.left = n → ∃ s ∈ r.right, g.Dead s) : g.Dead n := by
  choose block block_mem block_dead using h
  exact intro mem ne_start block block_mem block_dead

lemma exists_dead (h : g.Dead n) (hr : r ∈ g.rules) (hn : r.left = n) : ∃ s ∈ r.right, g.Dead s := by
  cases h with
  | intro _ _ block block_mem block_dead => exact ⟨_, block_mem r hr hn, block_dead r hr hn⟩

lemma mem_nonterminals (h : g.Dead n) : n ∈ g.nonterminals := by
  cases h
  assumption

lemma ne_start (h : g.Dead n) : n ≠ g.start := by
  cases h
  assumption

lemma not_mem_of_yields (hg : g.Consistent) {u w : List Symbol} (hy : Yields g.rules u w)
    (hw : ∀ t ∈ w, t ∈ g.terminals) : ∀ s ∈ u, ¬g.Dead s := by
  induction hy with
  | nil => simp
  | keep t _ ih =>
    obtain ⟨ht, hw⟩ := List.forall_mem_cons.mp hw
    refine List.forall_mem_cons.mpr ⟨fun hdead => ?_, ih hw⟩
    exact hg.disjoint ht hdead.mem_nonterminals
  | expand mem _ _ ih₁ ih₂ =>
    refine List.forall_mem_cons.mpr ⟨fun hdead => ?_, ih₂ fun t ht => hw t (List.mem_append_right _ ht)⟩
    obtain ⟨s, hs, hdead⟩ := hdead.exists_dead mem rfl
    exact ih₁ (fun t ht => hw t (List.mem_append_left _ ht)) s hs hdead

end Dead

/-! ### Rounds -/

lemma Consistent.succeeds_removeDeadEnd (hg : g.Consistent) (hn : n ∈ g.nonterminals) (hstart : n ≠ g.start)
    (hrules : ∀ r ∈ g.rules, r.left ≠ n) :
    Succeeds (removeDeadEnd n) g fun _ g' => g'.Consistent ∧ g'.contents =
      (g.contents.withNonterminals (g.nonterminals.filter (· != n))).withRules
        (g.rules.filter (!·.uses n)) := by
  have hsymbol : g.hasSymbol n = true := (hg.hasSymbol_iff n).mpr (List.mem_append_right _ hn)
  have hquery : g.rulesUsing n = .ok (g.rules.filter (·.uses n)) := if_pos hsymbol
  refine Succeeds.bind_ok (query_eq_ok hquery) ?_
  refine Succeeds.bind (hg.succeeds_eraseRules (hg.rules_nodup.filter _) fun r hr =>
    List.mem_of_mem_filter hr) ?_
  rintro _ g₁ ⟨hg₁, hc₁⟩
  have hkept : g.rules.filter (!(g.rules.filter (·.uses n)).contains ·) = g.rules.filter (!·.uses n) := by
    apply List.filter_congr
    intro r hr
    simp [hr]
  rw [hkept] at hc₁
  have hrules₁ : g₁.rules = g.rules.filter (!·.uses n) := congrArg Contents.rules hc₁
  have hnon₁ : g₁.nonterminals = g.nonterminals := congrArg Contents.nonterminals hc₁
  have hstart₁ : g₁.start = g.start := congrArg Contents.start hc₁
  refine (hg₁.succeeds_eraseNonterminal (by rwa [hnon₁]) ?_ (by rwa [hstart₁])).mono ?_
  · intro r hr
    rw [hrules₁, List.mem_filter] at hr
    exact ⟨(hrules r hr.1).symm, by simpa [Rule.uses] using hr.2⟩
  · rintro _ g₂ ⟨hg₂, hc₂⟩
    refine ⟨hg₂, ?_⟩
    rw [hc₂, hc₁, hnon₁]
    rfl

/-- Dead symbols are gone, and with them the rules that mention one. -/
structure DeadGone (gone : List Symbol) (g g' : Grammar) : Prop where
  dead : ∀ s ∈ gone, g.Dead s
  contents_eq : g'.contents = (g.contents.withNonterminals (g.nonterminals.filter (!gone.contains ·))).withRules
    (g.rules.filter (·.avoids gone))

namespace DeadGone

lemma refl (g : Grammar) : DeadGone [] g g := by
  have hall : ∀ r : Rule, r.avoids [] = true := fun r => Rule.avoids_iff.mpr (by simp)
  refine ⟨by simp, ?_⟩
  simp [contents, Contents.withNonterminals, Contents.withRules, hall]

lemma start_eq (h : DeadGone gone g g') : g'.start = g.start :=
  congrArg Contents.start h.contents_eq

lemma terminals_eq (h : DeadGone gone g g') : g'.terminals = g.terminals :=
  congrArg Contents.terminals h.contents_eq

lemma nonterminals_eq (h : DeadGone gone g g') : g'.nonterminals = g.nonterminals.filter (!gone.contains ·) :=
  congrArg Contents.nonterminals h.contents_eq

lemma rules_eq (h : DeadGone gone g g') : g'.rules = g.rules.filter (·.avoids gone) :=
  congrArg Contents.rules h.contents_eq

lemma mem_nonterminals (h : DeadGone gone g g') : n ∈ g'.nonterminals ↔ n ∈ g.nonterminals ∧ n ∉ gone := by
  simp [h.nonterminals_eq]

lemma mem_rules (h : DeadGone gone g g') :
    r ∈ g'.rules ↔ r ∈ g.rules ∧ r.left ∉ gone ∧ ∀ s ∈ r.right, s ∉ gone := by
  rw [h.rules_eq, List.mem_filter, Rule.avoids_iff]

lemma dead_of_ruleless (h : DeadGone gone g g') (hn : n ∈ g'.nonterminals) (hstart : n ≠ g'.start)
    (hrules : ∀ r ∈ g'.rules, r.left ≠ n) : g.Dead n := by
  obtain ⟨hmem, hgone⟩ := h.mem_nonterminals.mp hn
  refine .of_forall hmem (h.start_eq ▸ hstart) fun r hr hleft => ?_
  by_contra hnone
  push Not at hnone
  refine hrules r (h.mem_rules.mpr ⟨hr, hleft ▸ hgone, fun s hs hsgone => ?_⟩) hleft
  exact hnone s hs (h.dead s hsgone)

lemma step {g'' : Grammar} (h : DeadGone gone g g') (hn : n ∈ g'.nonterminals) (hstart : n ≠ g'.start)
    (hrules : ∀ r ∈ g'.rules, r.left ≠ n)
    (hc : g''.contents = (g'.contents.withNonterminals (g'.nonterminals.filter (· != n))).withRules
      (g'.rules.filter (!·.uses n))) : DeadGone (gone ++ [n]) g g'' := by
  constructor
  · intro s hs
    rcases List.mem_append.mp hs with hs | hs
    · exact h.dead s hs
    · rw [List.mem_singleton.mp hs]
      exact h.dead_of_ruleless hn hstart hrules
  · have hnon : g'.nonterminals.filter (· != n) = g.nonterminals.filter (!(gone ++ [n]).contains ·) := by
      rw [h.nonterminals_eq, filter_not_contains_concat]
    have hkept : g'.rules.filter (!·.uses n) = g.rules.filter (·.avoids (gone ++ [n])) := by
      rw [h.rules_eq, List.filter_filter]
      apply List.filter_congr
      intro r hr
      by_cases hleft : r.left = n
      · have hgone : r.avoids gone = false := by
          by_contra hne
          rw [Bool.not_eq_false] at hne
          exact hrules r (by rw [h.rules_eq, List.mem_filter]; exact ⟨hr, hne⟩) hleft
        have hgone' : r.avoids (gone ++ [n]) = false := by
          rw [← Bool.not_eq_true, Rule.avoids_iff]
          simp [hleft]
        rw [hgone, hgone', Bool.and_false]
      · exact (Rule.avoids_append hleft).symm
    rw [hc, hnon, hkept, h.contents_eq]
    rfl

end DeadGone

lemma DeadGone.succeeds_round {g₀ : Grammar} (h : DeadGone gone g₀ g) (hg : g.Consistent) (hnodup : found.Nodup)
    (hfound : ∀ n ∈ found, n ∈ g.nonterminals ∧ n ≠ g.start ∧ ∀ r ∈ g.rules, r.left ≠ n) :
    Succeeds (found.forM removeDeadEnd) g fun _ g' => g'.Consistent ∧ DeadGone (gone ++ found) g₀ g' := by
  refine Succeeds.forM (fun done (g' : Grammar) => g'.Consistent ∧ DeadGone (gone ++ done) g₀ g')
    ⟨hg, by rwa [List.append_nil]⟩ ?_
  rintro done n rest g' rfl ⟨hg', h'⟩
  obtain ⟨hmem, hstart, hrules⟩ := hfound n (by simp)
  have hnew : n ∉ done := fun hdone => (List.nodup_append'.mp hnodup).2.2 hdone List.mem_cons_self
  obtain ⟨hmem₀, hgone⟩ := h.mem_nonterminals.mp hmem
  have hmem' : n ∈ g'.nonterminals := h'.mem_nonterminals.mpr ⟨hmem₀, by simp [hgone, hnew]⟩
  have hstart' : n ≠ g'.start := by
    rwa [h'.start_eq, ← h.start_eq]
  have hrules' : ∀ r ∈ g'.rules, r.left ≠ n := by
    intro r hr
    obtain ⟨hr₀, hleft, hright⟩ := h'.mem_rules.mp hr
    apply hrules r
    rw [h.mem_rules]
    exact ⟨hr₀, fun hl => hleft (List.mem_append_left _ hl), fun s hs hl => hright s hs (List.mem_append_left _ hl)⟩
  refine (hg'.succeeds_removeDeadEnd hmem' hstart' hrules').mono ?_
  rintro _ g'' ⟨hg'', hc⟩
  refine ⟨hg'', ?_⟩
  rw [← List.append_assoc]
  exact h'.step hmem' hstart' hrules' hc

lemma mem_of_deadEnds? (h : g.deadEnds? = some found) :
    found ≠ [] ∧ found = g.ruleless.filter (· != g.start) ∧
      ∀ n ∈ found, n ∈ g.nonterminals ∧ n ≠ g.start ∧ ∀ r ∈ g.rules, r.left ≠ n := by
  unfold deadEnds? at h
  split at h
  · cases h
  · next hne =>
    cases h
    refine ⟨hne, rfl, fun n hn => ?_⟩
    rw [List.mem_filter, ruleless, List.mem_filter] at hn
    simpa [and_left_comm, and_assoc] using hn.symm

lemma exists_rule_of_deadEnds? (h : g.deadEnds? = none) (hn : n ∈ g.nonterminals) (hstart : n ≠ g.start) :
    ∃ r ∈ g.rules, r.left = n := by
  unfold deadEnds? at h
  split at h
  · next hnil =>
    have hnot := List.filter_eq_nil_iff.mp hnil n
    by_contra hnone
    push Not at hnone
    refine hnot ?_ (by simpa using hstart)
    rw [ruleless, List.mem_filter]
    simpa using ⟨hn, hnone⟩
  · cases h

lemma DeadGone.mem_gone_of_dead (h : DeadGone gone g g') (hnone : g'.deadEnds? = none) (hn : g.Dead n) :
    n ∈ gone := by
  induction hn with
  | @intro n mem ne_start block block_mem _ ih =>
    by_contra hgone
    obtain ⟨r, hr, hleft⟩ := exists_rule_of_deadEnds? hnone (h.mem_nonterminals.mpr ⟨mem, hgone⟩)
      (by rwa [h.start_eq])
    obtain ⟨hr, -, hright⟩ := h.mem_rules.mp hr
    exact hright _ (block_mem r hr hleft) (ih r hr hleft)

lemma DeadGone.succeeds_found {g₀ : Grammar} (h : DeadGone gone g₀ g) (hg : g.Consistent)
    (hfind : g.deadEnds? = some found) :
    Succeeds (found.forM removeDeadEnd) g fun _ g' => g'.Consistent ∧ DeadGone (gone ++ found) g₀ g' ∧
      g'.nonterminals.length < g.nonterminals.length := by
  obtain ⟨hne, hfound, hruleless⟩ := mem_of_deadEnds? hfind
  have hnodup : found.Nodup := by
    rw [hfound]
    exact (hg.nonterminals_nodup.filter _).filter _
  apply (h.succeeds_round hg hnodup hruleless).mono
  rintro _ g' ⟨hg', h'⟩
  have hsub : g'.nonterminals = g.nonterminals.filter (!found.contains ·) := by
    rw [h'.nonterminals_eq, h.nonterminals_eq, filter_not_contains_append]
  obtain ⟨n, hn⟩ := List.exists_mem_of_ne_nil found hne
  refine ⟨hg', h', ?_⟩
  rw [hsub, List.length_filter_lt_length_iff_exists]
  exact ⟨n, (hruleless n hn).1, by simpa using hn⟩

/-- The rounds end when every nonterminal but perhaps the start symbol has a rule; exactly the dead symbols are
gone then. Every round has taken at least one of them away. -/
theorem Consistent.succeeds_removeDeadEnds (hg : g.Consistent) :
    Succeeds removeDeadEnds g fun past g' => g'.Consistent ∧ DeadGone past.flatten g g' ∧
      (∀ s, s ∈ past.flatten ↔ g.Dead s) ∧ past.length + g'.nonterminals.length ≤ g.nonterminals.length ∧
      g'.deadEnds? = none := by
  have hbegin : g.Consistent ∧ DeadGone ([] : List (List Symbol)).flatten g g ∧
      ([] : List (List Symbol)).length + g.nonterminals.length ≤ g.nonterminals.length :=
    ⟨hg, .refl g, by simp⟩
  apply Succeeds.get_bind
  refine (Succeeds.exhaust (fun past h => h.Consistent ∧ DeadGone past.flatten g h ∧
    past.length + h.nonterminals.length ≤ g.nonterminals.length) (fun _ h => h.nonterminals.length)
    ?_ hbegin le_rfl).mono ?_
  · rintro past found h ⟨hh, hinv, hcount⟩ hfind
    have hflatten : (past ++ [found]).flatten = past.flatten ++ found := by simp
    rw [hflatten]
    apply (hinv.succeeds_found hh hfind).mono
    rintro _ h' ⟨hh', hinv', hlt⟩
    refine ⟨⟨hh', hinv', ?_⟩, hlt⟩
    rw [List.length_append, List.length_singleton]
    omega
  · rintro past g' ⟨⟨hg', hinv, hcount⟩, hfind⟩
    exact ⟨hg', hinv, fun s => ⟨hinv.dead s, hinv.mem_gone_of_dead hfind⟩, hcount, hfind⟩

lemma DeadGone.generatesFrom_iff (h : DeadGone gone g g') (hg : g.Consistent) (s : Symbol) (w : List Symbol) :
    g'.GeneratesFrom s w ↔ g.GeneratesFrom s w := by
  have hnew : ∀ u w, (∀ t ∈ w, t ∈ g.terminals) → Yields g.rules u w → Yields g'.rules u w := by
    intro u w hw hy
    refine hy.of_rulewise hw fun r hr v hv hold hinner => .of_mem (h.mem_rules.mpr ⟨hr, ?_, ?_⟩) hinner
    · have hleft := Dead.not_mem_of_yields hg (Yields.of_mem hr hold) hv r.left List.mem_cons_self
      exact fun hgone => hleft (h.dead _ hgone)
    · intro s hs hgone
      exact Dead.not_mem_of_yields hg hold hv s hs (h.dead s hgone)
  unfold GeneratesFrom
  rw [h.terminals_eq]
  apply and_congr_right
  intro hw
  constructor
  · exact fun hd => hd.mono fun r hr => (h.mem_rules.mp hr).1
  · exact fun hd => derives_iff_yields.mpr (hnew [s] w hw (derives_iff_yields.mp hd))

end Grammar

end ContextFree

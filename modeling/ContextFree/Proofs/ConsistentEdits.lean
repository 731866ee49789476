import ContextFree.Operation
import ContextFree.Proofs.Consistency

/-!
# Edits of consistent grammars

A consistent grammar refuses an elementary edit exactly when its lists give a reason to. So every edit, however
it is put together and however it ends, leaves a consistent grammar consistent; and an edit for which there is no
reason to refuse has the effect on the lists that its name says.
-/

namespace ContextFree.Grammar

variable {g : Grammar}

namespace Consistent

variable {r : Rule} {s t n : Symbol}

lemma not_isMentioned_iff (hg : g.Consistent) (s : Symbol) :
    g.isMentioned s = false ↔ ∀ r ∈ g.rules, s ≠ r.left ∧ s ∉ r.right := by
  rw [← Bool.not_eq_true, hg.isMentioned_iff]
  push Not
  rfl

lemma newSymbolCause?_eq_none (hg : g.Consistent) :
    g.newSymbolCause? s = none ↔ s ≠ "" ∧ s ∉ g.symbols := by
  unfold newSymbolCause?
  simp only [hg.isTerminal_iff, hg.isNonterminal_iff, symbols, List.mem_append]
  split_ifs <;> simp_all

lemma eraseTerminalCause?_eq_none (hg : g.Consistent) :
    g.eraseTerminalCause? t = none ↔ t ∈ g.terminals ∧ ∀ r ∈ g.rules, t ≠ r.left ∧ t ∉ r.right := by
  unfold eraseTerminalCause?
  rw [← hg.isTerminal_iff, ← hg.not_isMentioned_iff]
  split_ifs <;> simp_all

lemma eraseNonterminalCause?_eq_none (hg : g.Consistent) :
    g.eraseNonterminalCause? n = none ↔
      n ∈ g.nonterminals ∧ (∀ r ∈ g.rules, n ≠ r.left ∧ n ∉ r.right) ∧ n ≠ g.start := by
  unfold eraseNonterminalCause?
  rw [← hg.isNonterminal_iff, ← hg.not_isMentioned_iff]
  split_ifs <;> simp_all

lemma insertRuleRefusal?_eq_none (hg : g.Consistent) :
    g.insertRuleRefusal? r = none ↔
      r.left ∈ g.nonterminals ∧ (∀ s ∈ r.right, s ∈ g.symbols) ∧ r ∉ g.rules := by
  unfold insertRuleRefusal?
  rw [← hg.isNonterminal_iff, ← hg.hasRule_iff]
  simp only [← hg.hasSymbol_iff]
  cases hleft : g.isNonterminal r.left with
  | false => simp
  | true =>
    cases hfind : r.right.find? fun s => !g.hasSymbol s with
    | some s =>
      have hs := List.find?_some hfind
      have hmem := List.mem_of_find?_eq_some hfind
      simp only [Bool.not_true, Bool.false_eq_true, if_false, reduceCtorEq, false_iff]
      rintro ⟨-, hall, -⟩
      simp [hall s hmem] at hs
    | none =>
      have hall := List.find?_eq_none.mp hfind
      have hall' : ∀ s ∈ r.right, g.hasSymbol s = true := fun s hs => by simpa using hall s hs
      cases hrule : g.hasRule r with
      | false => simpa using hall'
      | true => simp

/-! ### What every edit keeps -/

lemma keeps_insertTerminal (t : Symbol) : Keeps Consistent (Grammar.insertTerminal t) := by
  apply Keeps.guarded
  intro g hg hrefusal
  obtain ⟨hne, hnew⟩ := hg.newSymbolCause?_eq_none.mp (Option.map_eq_none_iff.mp hrefusal)
  exact hg.insertTerminal hne hnew

lemma keeps_insertNonterminal (n : Symbol) : Keeps Consistent (Grammar.insertNonterminal n) := by
  apply Keeps.guarded
  intro g hg hrefusal
  obtain ⟨hne, hnew⟩ := hg.newSymbolCause?_eq_none.mp (Option.map_eq_none_iff.mp hrefusal)
  exact hg.insertNonterminal hne hnew

lemma keeps_eraseTerminal (t : Symbol) : Keeps Consistent (Grammar.eraseTerminal t) := by
  apply Keeps.guarded
  intro g hg hrefusal
  obtain ⟨-, hunused⟩ := hg.eraseTerminalCause?_eq_none.mp (Option.map_eq_none_iff.mp hrefusal)
  exact hg.eraseTerminal fun r hr => (hunused r hr).2

lemma keeps_eraseNonterminal (n : Symbol) : Keeps Consistent (Grammar.eraseNonterminal n) := by
  apply Keeps.guarded
  intro g hg hrefusal
  obtain ⟨-, hunused, hstart⟩ := hg.eraseNonterminalCause?_eq_none.mp (Option.map_eq_none_iff.mp hrefusal)
  exact hg.eraseNonterminal hunused hstart

lemma keeps_setStart (n : Symbol) : Keeps Consistent (Grammar.setStart n) := by
  apply Keeps.guarded
  intro g hg hrefusal
  have hn : g.isNonterminal n = true := by
    by_contra h
    simp [h] at hrefusal
  exact hg.setStart ((hg.isNonterminal_iff n).mp hn)

lemma keeps_insertRule (r : Rule) : Keeps Consistent (Grammar.insertRule r) := by
  apply Keeps.guarded
  intro g hg hrefusal
  obtain ⟨hleft, hright, hnew⟩ := hg.insertRuleRefusal?_eq_none.mp hrefusal
  exact hg.pushRule hleft hright hnew

lemma keeps_eraseRule (r : Rule) : Keeps Consistent (Grammar.eraseRule r) := by
  apply Keeps.guarded
  intro g hg hrefusal
  have hr : g.hasRule r = true := by
    by_contra h
    simp [h] at hrefusal
  exact hg.dropRule ((hg.hasRule_iff r).mp hr)

lemma keeps_insertMissingRule (r : Rule) : Keeps Consistent (Grammar.insertMissingRule r) := by
  refine Keeps.bind Keeps.get ?_
  intro g
  by_cases h : g.hasRule r = true
  · simp only [h, if_true]
    exact Keeps.pure _
  · simp only [h]
    exact keeps_insertRule r

lemma keeps_insertFresh : Keeps Consistent Grammar.insertFresh := by
  refine Keeps.bind Keeps.get ?_
  intro g
  exact Keeps.bind (keeps_insertNonterminal _) fun _ => Keeps.pure _

lemma keeps_eraseRules (rs : List Rule) : Keeps Consistent (Grammar.eraseRules rs) :=
  Keeps.forM fun r _ => keeps_eraseRule r

lemma keeps_isolateTerminal (t : Symbol) : Keeps Consistent (Grammar.isolateTerminal t) := by
  refine Keeps.bind keeps_insertFresh fun z => Keeps.bind (keeps_insertRule _) fun _ => ?_
  refine Keeps.bind Keeps.get fun g => Keeps.forM fun r _ => ?_
  exact Keeps.bind (keeps_insertRule _) fun _ => keeps_eraseRule r

lemma keeps_splitRule (r : Rule) : Keeps Consistent (Grammar.splitRule r) := by
  unfold Grammar.splitRule
  cases r.right with
  | nil => exact Keeps.pure _
  | cons s rest =>
    refine Keeps.bind (keeps_eraseRule r) fun _ => Keeps.bind keeps_insertFresh fun z => ?_
    exact Keeps.bind (keeps_insertRule _) fun _ => keeps_insertRule _

lemma keeps_eraseSymbol (past : List Symbol) (a : Symbol) : Keeps Consistent (Grammar.eraseSymbol past a) := by
  refine Keeps.bind Keeps.get fun g => Keeps.bind ?_ fun _ => keeps_eraseRule _
  exact Keeps.forM fun r _ => keeps_insertMissingRule r

lemma keeps_removeDeadEnd (n : Symbol) : Keeps Consistent (Grammar.removeDeadEnd n) :=
  Keeps.bind (Keeps.query _) fun rs => Keeps.bind (keeps_eraseRules rs) fun _ => keeps_eraseNonterminal n

lemma keeps_removeUnreachable : Keeps Consistent Grammar.removeUnreachable := by
  refine Keeps.bind Keeps.get fun g => Keeps.bind ?_ fun _ => ?_
  · exact Keeps.forM fun n _ => Keeps.bind (Keeps.query _) fun rs => keeps_eraseRules rs
  · exact Keeps.forM fun n _ => keeps_eraseNonterminal n

lemma keeps_stage (stage : Stage) : Keeps Consistent stage.edit := by
  cases stage with
  | isolation =>
    refine Keeps.adaptExcept _ (Keeps.map _ (Keeps.bind Keeps.get fun g => ?_))
    exact Keeps.exhaust (fun _ t => keeps_isolateTerminal t) _ _
  | splitting =>
    refine Keeps.adaptExcept _ (Keeps.map _ (Keeps.bind Keeps.get fun g => ?_))
    exact Keeps.exhaust (fun _ r => keeps_splitRule r) _ _
  | freshStart =>
    refine Keeps.adaptExcept _ (Keeps.bind keeps_insertFresh fun z => Keeps.bind Keeps.get fun g => ?_)
    exact Keeps.bind (keeps_insertRule _) fun _ => keeps_setStart z
  | erasure =>
    refine Keeps.adaptExcept _ (Keeps.map _ (Keeps.bind Keeps.get fun g => ?_))
    exact Keeps.exhaust keeps_eraseSymbol _ _
  | unitCollapse =>
    refine Keeps.adaptExcept _ (Keeps.bind Keeps.get fun g => Keeps.bind ?_ fun _ => keeps_eraseRules _)
    exact Keeps.forM fun r _ => keeps_insertMissingRule r
  | pruning =>
    refine Keeps.adaptExcept _ (Keeps.bind (Keeps.map _ (Keeps.bind Keeps.get fun g => ?_)) fun _ => ?_)
    · exact Keeps.exhaust (fun _ found => Keeps.forM fun n _ => keeps_removeDeadEnd n) _ _
    · refine Keeps.bind keeps_removeUnreachable fun _ => Keeps.bind Keeps.get fun g => ?_
      exact Keeps.forM fun t _ => keeps_eraseTerminal t

lemma keeps_operation (op : Operation) : Keeps Consistent op.edit := by
  cases op with
  | insertTerminal t => exact Keeps.bind (keeps_insertTerminal t) fun _ => Keeps.pure _
  | eraseTerminal t => exact Keeps.bind (keeps_eraseTerminal t) fun _ => Keeps.pure _
  | insertNonterminal n => exact Keeps.bind (keeps_insertNonterminal n) fun _ => Keeps.pure _
  | eraseNonterminal n => exact Keeps.bind (keeps_eraseNonterminal n) fun _ => Keeps.pure _
  | setStart n => exact Keeps.bind (keeps_setStart n) fun _ => Keeps.pure _
  | insertTerminals ts =>
    exact Keeps.bind (Keeps.forM fun t _ => keeps_insertTerminal t) fun _ => Keeps.pure _
  | eraseTerminals ts => exact Keeps.bind (Keeps.forM fun t _ => keeps_eraseTerminal t) fun _ => Keeps.pure _
  | insertNonterminals ns =>
    exact Keeps.bind (Keeps.forM fun n _ => keeps_insertNonterminal n) fun _ => Keeps.pure _
  | eraseNonterminals ns =>
    exact Keeps.bind (Keeps.forM fun n _ => keeps_eraseNonterminal n) fun _ => Keeps.pure _
  | insertRule r => exact Keeps.bind (keeps_insertRule r) fun _ => Keeps.pure _
  | eraseRule r => exact Keeps.bind (keeps_eraseRule r) fun _ => Keeps.pure _
  | insertRules rs => exact Keeps.bind (Keeps.forM fun r _ => keeps_insertRule r) fun _ => Keeps.pure _
  | eraseRules rs => exact Keeps.bind (keeps_eraseRules rs) fun _ => Keeps.pure _
  | insertFresh => exact Keeps.bind keeps_insertFresh fun _ => Keeps.pure _
  | stage s => exact Keeps.bind (keeps_stage s) fun _ => Keeps.pure _

/-! ### What edits do -/

lemma insertMissingRule_eq (g : Grammar) (r : Rule) :
    Grammar.insertMissingRule r g = if g.hasRule r then .ok () g else Grammar.insertRule r g := by
  change (if g.hasRule r then (pure () : Edit Unit) else Grammar.insertRule r) g = _
  split <;> rfl

lemma freshName_spec (g : Grammar) (hg : g.Consistent) : g.freshName ≠ "" ∧ g.freshName ∉ g.symbols := by
  unfold freshName Namer.firstUnused
  cases hfind : (List.range (g.namer.bound g.symbols + 1)).find? fun i =>
      g.namer.name i != "" && !g.hasSymbol (g.namer.name i) with
  | some i =>
    have hi := List.find?_some hfind
    simp only [Bool.and_eq_true, bne_iff_ne, ne_eq, Bool.not_eq_true', ← Bool.not_eq_true,
      hg.hasSymbol_iff] at hi
    simpa using hi
  | none =>
    obtain ⟨i, hi, hne, hunused⟩ := g.namer.exists_unused g.symbols
    have := List.find?_eq_none.mp hfind i (List.mem_range.mpr (by omega))
    rw [← hg.hasSymbol_iff] at hunused
    simp [hne, hunused] at this

lemma succeeds_insertTerminal (hg : g.Consistent) (hne : t ≠ "") (hnew : t ∉ g.symbols) :
    Succeeds (Grammar.insertTerminal t) g fun _ g' => g'.Consistent ∧
      g'.contents = g.contents.withTerminals (g.terminals ++ [t]) :=
  Succeeds.guarded (Option.map_eq_none_iff.mpr (hg.newSymbolCause?_eq_none.mpr ⟨hne, hnew⟩))
    ⟨hg.insertTerminal hne hnew, rfl⟩

lemma succeeds_insertNonterminal (hg : g.Consistent) (hne : n ≠ "") (hnew : n ∉ g.symbols) :
    Succeeds (Grammar.insertNonterminal n) g fun _ g' => g'.Consistent ∧
      g'.contents = g.contents.withNonterminals (g.nonterminals ++ [n]) :=
  Succeeds.guarded (Option.map_eq_none_iff.mpr (hg.newSymbolCause?_eq_none.mpr ⟨hne, hnew⟩))
    ⟨hg.insertNonterminal hne hnew, rfl⟩

lemma succeeds_insertFresh (hg : g.Consistent) :
    Succeeds Grammar.insertFresh g fun z g' => z = g.freshName ∧ z ∉ g.symbols ∧ g'.Consistent ∧
      g'.contents = g.contents.withNonterminals (g.nonterminals ++ [z]) := by
  obtain ⟨hne, hnew⟩ := freshName_spec g hg
  apply Succeeds.get_bind
  refine Succeeds.bind (hg.succeeds_insertNonterminal hne hnew) ?_
  rintro _ g' ⟨hg', hc⟩
  exact Succeeds.pure ⟨rfl, hnew, hg', hc⟩

lemma succeeds_setStart (hg : g.Consistent) (hn : n ∈ g.nonterminals) :
    Succeeds (Grammar.setStart n) g fun _ g' => g'.Consistent ∧
      g'.contents = g.contents.withStart n := by
  refine Succeeds.guarded ?_ ⟨hg.setStart hn, rfl⟩
  simp [(hg.isNonterminal_iff n).mpr hn]

lemma succeeds_insertRule (hg : g.Consistent) (hleft : r.left ∈ g.nonterminals)
    (hright : ∀ s ∈ r.right, s ∈ g.symbols) (hnew : r ∉ g.rules) :
    Succeeds (Grammar.insertRule r) g fun _ g' => g'.Consistent ∧
      g'.contents = g.contents.withRules (g.rules ++ [r]) :=
  Succeeds.guarded (hg.insertRuleRefusal?_eq_none.mpr ⟨hleft, hright, hnew⟩)
    ⟨hg.pushRule hleft hright hnew, rfl⟩

lemma succeeds_eraseRule (hg : g.Consistent) (hr : r ∈ g.rules) :
    Succeeds (Grammar.eraseRule r) g fun _ g' => g'.Consistent ∧
      g'.contents = g.contents.withRules (g.rules.filter (· != r)) := by
  refine Succeeds.guarded ?_ ⟨hg.dropRule hr, ?_⟩
  · simp [(hg.hasRule_iff r).mpr hr]
  · rw [← hg.rules_nodup.erase_eq_filter]
    rfl

lemma symbols_eq {g' : Grammar} (hterminals : g'.terminals = g.terminals)
    (hnonterminals : g'.nonterminals = g.nonterminals) : g'.symbols = g.symbols := by
  rw [symbols, symbols, hterminals, hnonterminals]

/-- Edits for the elements of a list in turn, given what the lists of the grammar are after some of them. -/
lemma succeeds_batch {α : Type} {edit : α → Edit Unit} {xs : List α} (after : List α → Contents)
    (hg : g.Consistent) (hxs : xs.Nodup) (hbefore : g.contents = after [])
    (hstep : ∀ done x g', done ⊆ xs → x ∈ xs → x ∉ done → g'.Consistent → g'.contents = after done →
      Succeeds (edit x) g' fun _ g'' => g''.Consistent ∧ g''.contents = after (done ++ [x])) :
    Succeeds (xs.forM edit) g fun _ g' => g'.Consistent ∧ g'.contents = after xs := by
  refine Succeeds.forM (fun done (g' : Grammar) => g'.Consistent ∧ g'.contents = after done) ⟨hg, hbefore⟩ ?_
  rintro done x rest g' rfl ⟨hg', hc⟩
  have hnew : x ∉ done := fun hmem => (List.nodup_append'.mp hxs).2.2 hmem List.mem_cons_self
  exact hstep done x g' (List.subset_append_left _ _) (by simp) hnew hg' hc

lemma succeeds_insertTerminals {ts : List Symbol} (hg : g.Consistent) (hts : ts.Nodup)
    (hne : ∀ t ∈ ts, t ≠ "") (hnew : ∀ t ∈ ts, t ∉ g.symbols) :
    Succeeds (Grammar.insertTerminals ts) g fun _ g' => g'.Consistent ∧
      g'.contents = g.contents.withTerminals (g.terminals ++ ts) := by
  refine succeeds_batch (fun done => g.contents.withTerminals (g.terminals ++ done)) hg hts
    (by simp [contents, Contents.withTerminals]) ?_
  intro done t g' _ ht hdone hg' hc
  have hterminals : g'.terminals = g.terminals ++ done := congrArg Contents.terminals hc
  have hnonterminals : g'.nonterminals = g.nonterminals := congrArg Contents.nonterminals hc
  have hnew' : t ∉ g'.symbols := by
    have := hnew t ht
    simp only [symbols, hterminals, hnonterminals, List.mem_append] at this ⊢
    tauto
  refine (hg'.succeeds_insertTerminal (hne t ht) hnew').mono ?_
  rintro _ g'' ⟨hg'', hc'⟩
  refine ⟨hg'', ?_⟩
  rw [hc', hc, hterminals, List.append_assoc]
  rfl

lemma succeeds_insertNonterminals {ns : List Symbol} (hg : g.Consistent) (hns : ns.Nodup)
    (hne : ∀ n ∈ ns, n ≠ "") (hnew : ∀ n ∈ ns, n ∉ g.symbols) :
    Succeeds (Grammar.insertNonterminals ns) g fun _ g' => g'.Consistent ∧
      g'.contents = g.contents.withNonterminals (g.nonterminals ++ ns) := by
  refine succeeds_batch (fun done => g.contents.withNonterminals (g.nonterminals ++ done)) hg hns
    (by simp [contents, Contents.withNonterminals]) ?_
  intro done n g' _ hn hdone hg' hc
  have hterminals : g'.terminals = g.terminals := congrArg Contents.terminals hc
  have hnonterminals : g'.nonterminals = g.nonterminals ++ done := congrArg Contents.nonterminals hc
  have hnew' : n ∉ g'.symbols := by
    have := hnew n hn
    simp only [symbols, hterminals, hnonterminals, List.mem_append] at this ⊢
    tauto
  refine (hg'.succeeds_insertNonterminal (hne n hn) hnew').mono ?_
  rintro _ g'' ⟨hg'', hc'⟩
  refine ⟨hg'', ?_⟩
  rw [hc', hc, hnonterminals, List.append_assoc]
  rfl

lemma succeeds_insertRules {rs : List Rule} (hg : g.Consistent) (hrs : rs.Nodup)
    (hleft : ∀ r ∈ rs, r.left ∈ g.nonterminals) (hright : ∀ r ∈ rs, ∀ s ∈ r.right, s ∈ g.symbols)
    (hnew : ∀ r ∈ rs, r ∉ g.rules) :
    Succeeds (Grammar.insertRules rs) g fun _ g' => g'.Consistent ∧
      g'.contents = g.contents.withRules (g.rules ++ rs) := by
  refine succeeds_batch (fun done => g.contents.withRules (g.rules ++ done)) hg hrs
    (by simp [contents, Contents.withRules]) ?_
  intro done r g' _ hr hdone hg' hc
  have hrules : g'.rules = g.rules ++ done := congrArg Contents.rules hc
  have hnon : g'.nonterminals = g.nonterminals := congrArg Contents.nonterminals hc
  have hsym : g'.symbols = g.symbols := symbols_eq (congrArg Contents.terminals hc) hnon
  have hnew' : r ∉ g'.rules := by
    rw [hrules, List.mem_append]
    exact not_or_intro (hnew r hr) hdone
  refine (hg'.succeeds_insertRule (hnon ▸ hleft r hr) (hsym ▸ hright r hr) hnew').mono ?_
  rintro _ g'' ⟨hg'', hc'⟩
  refine ⟨hg'', ?_⟩
  rw [hc', hc, hrules, List.append_assoc]
  rfl

lemma succeeds_eraseRules {rs : List Rule} (hg : g.Consistent) (hrs : rs.Nodup)
    (hmem : ∀ r ∈ rs, r ∈ g.rules) :
    Succeeds (Grammar.eraseRules rs) g fun _ g' => g'.Consistent ∧
      g'.contents = g.contents.withRules (g.rules.filter (!rs.contains ·)) := by
  refine succeeds_batch (fun done => g.contents.withRules (g.rules.filter (!done.contains ·))) hg hrs
    (by simp [contents, Contents.withRules]) ?_
  intro done r g' _ hr hdone hg' hc
  have hrules : g'.rules = g.rules.filter (!done.contains ·) := congrArg Contents.rules hc
  refine (hg'.succeeds_eraseRule (by simp [hrules, hmem r hr, hdone])).mono ?_
  rintro _ g'' ⟨hg'', hc'⟩
  refine ⟨hg'', ?_⟩
  rw [hc', hc, hrules, filter_not_contains_concat]
  rfl

lemma succeeds_insertMissingRules {rs : List Rule} (hg : g.Consistent)
    (hleft : ∀ r ∈ rs, r.left ∈ g.nonterminals) (hright : ∀ r ∈ rs, ∀ s ∈ r.right, s ∈ g.symbols) :
    Succeeds (rs.forM Grammar.insertMissingRule) g fun _ g' => g'.Consistent ∧
      ∃ added, g'.contents = g.contents.withRules (g.rules ++ added) ∧
        ∀ r, r ∈ added ↔ r ∈ rs ∧ r ∉ g.rules := by
  refine Succeeds.forM (fun done (g' : Grammar) => g'.Consistent ∧
    ∃ added, g'.contents = g.contents.withRules (g.rules ++ added) ∧ ∀ r, r ∈ added ↔ r ∈ done ∧ r ∉ g.rules)
    ⟨hg, [], by simp [contents, Contents.withRules], by simp⟩ ?_
  rintro done r rest g' rfl ⟨hg', added, hc, hadded⟩
  have hr : r ∈ done ++ r :: rest := by simp
  have hrules : g'.rules = g.rules ++ added := congrArg Contents.rules hc
  have hnon : g'.nonterminals = g.nonterminals := congrArg Contents.nonterminals hc
  have hsym : g'.symbols = g.symbols := symbols_eq (congrArg Contents.terminals hc) hnon
  by_cases hmem : r ∈ g'.rules
  · have hskip : Grammar.insertMissingRule r g' = .ok () g' := by
      rw [insertMissingRule_eq, if_pos ((hg'.hasRule_iff r).mpr hmem)]
    refine ⟨(), g', hskip, hg', added, hc, fun o => ?_⟩
    rw [hrules, List.mem_append, hadded] at hmem
    by_cases ho : o = r
    · rw [ho, hadded]
      simp only [List.mem_append, List.mem_singleton, or_true, true_and]
      tauto
    · simp [hadded, ho]
  · have hadd : Grammar.insertMissingRule r g' = Grammar.insertRule r g' := by
      rw [insertMissingRule_eq, if_neg (mt (hg'.hasRule_iff r).mp hmem)]
    obtain ⟨_, g'', hok, hg'', hc'⟩ := hg'.succeeds_insertRule (hnon ▸ hleft r hr) (hsym ▸ hright r hr) hmem
    refine ⟨(), g'', hadd.trans hok, hg'', added ++ [r], ?_, fun o => ?_⟩
    · rw [hc', hc, hrules, List.append_assoc]
      rfl
    · rw [hrules, List.mem_append, not_or] at hmem
      by_cases ho : o = r
      · simp [ho, hmem.1]
      · simp [hadded, ho]

lemma succeeds_eraseTerminal (hg : g.Consistent) (ht : t ∈ g.terminals) (hunused : ∀ r ∈ g.rules, t ∉ r.right) :
    Succeeds (Grammar.eraseTerminal t) g fun _ g' => g'.Consistent ∧
      g'.contents = g.contents.withTerminals (g.terminals.filter (· != t)) := by
  have hleft : ∀ r ∈ g.rules, t ≠ r.left := fun r hr h => hg.disjoint ht (h ▸ hg.left_mem r hr)
  have hcause := hg.eraseTerminalCause?_eq_none.mpr ⟨ht, fun r hr => ⟨hleft r hr, hunused r hr⟩⟩
  refine Succeeds.guarded (Option.map_eq_none_iff.mpr hcause) ⟨hg.eraseTerminal hunused, ?_⟩
  rw [← hg.terminals_nodup.erase_eq_filter]
  rfl

lemma succeeds_eraseTerminals {ts : List Symbol} (hg : g.Consistent) (hts : ts.Nodup)
    (hmem : ∀ t ∈ ts, t ∈ g.terminals) (hunused : ∀ t ∈ ts, ∀ r ∈ g.rules, t ∉ r.right) :
    Succeeds (Grammar.eraseTerminals ts) g fun _ g' => g'.Consistent ∧
      g'.contents = g.contents.withTerminals (g.terminals.filter (!ts.contains ·)) := by
  refine succeeds_batch (fun done => g.contents.withTerminals (g.terminals.filter (!done.contains ·))) hg hts
    (by simp [contents, Contents.withTerminals]) ?_
  intro done t g' _ ht hdone hg' hc
  have hterminals : g'.terminals = g.terminals.filter (!done.contains ·) := congrArg Contents.terminals hc
  have hrules : g'.rules = g.rules := congrArg Contents.rules hc
  refine (hg'.succeeds_eraseTerminal (by simp [hterminals, hmem t ht, hdone]) (hrules ▸ hunused t ht)).mono ?_
  rintro _ g'' ⟨hg'', hc'⟩
  refine ⟨hg'', ?_⟩
  rw [hc', hc, hterminals, filter_not_contains_concat]
  rfl

lemma succeeds_eraseNonterminal (hg : g.Consistent) (hn : n ∈ g.nonterminals)
    (hunused : ∀ r ∈ g.rules, n ≠ r.left ∧ n ∉ r.right) (hstart : n ≠ g.start) :
    Succeeds (Grammar.eraseNonterminal n) g fun _ g' => g'.Consistent ∧
      g'.contents = g.contents.withNonterminals (g.nonterminals.filter (· != n)) := by
  have hcause := hg.eraseNonterminalCause?_eq_none.mpr ⟨hn, hunused, hstart⟩
  have hnodup := hg.nonterminals_nodup
  refine Succeeds.guarded (Option.map_eq_none_iff.mpr hcause) ⟨hg.eraseNonterminal hunused hstart, ?_⟩
  rw [← hnodup.erase_eq_filter]
  rfl

lemma succeeds_eraseNonterminals {ns : List Symbol} (hg : g.Consistent) (hns : ns.Nodup)
    (hmem : ∀ n ∈ ns, n ∈ g.nonterminals) (hunused : ∀ n ∈ ns, ∀ r ∈ g.rules, n ≠ r.left ∧ n ∉ r.right)
    (hstart : g.start ∉ ns) :
    Succeeds (Grammar.eraseNonterminals ns) g fun _ g' => g'.Consistent ∧
      g'.contents = g.contents.withNonterminals (g.nonterminals.filter (!ns.contains ·)) := by
  refine succeeds_batch (fun done => g.contents.withNonterminals (g.nonterminals.filter (!done.contains ·)))
    hg hns (by simp [contents, Contents.withNonterminals]) ?_
  intro done n g' _ hn hdone hg' hc
  have hnon : g'.nonterminals = g.nonterminals.filter (!done.contains ·) := congrArg Contents.nonterminals hc
  have hrules : g'.rules = g.rules := congrArg Contents.rules hc
  have hstart' : n ≠ g'.start := by
    rw [show g'.start = g.start from congrArg Contents.start hc]
    rintro rfl
    exact hstart hn
  refine (hg'.succeeds_eraseNonterminal (by simp [hnon, hmem n hn, hdone]) (hrules ▸ hunused n hn) hstart').mono ?_
  rintro _ g'' ⟨hg'', hc'⟩
  refine ⟨hg'', ?_⟩
  rw [hc', hc, hnon, filter_not_contains_concat]
  rfl

end Consistent

end ContextFree.Grammar

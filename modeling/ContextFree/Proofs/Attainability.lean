import ContextFree.Proofs.ConsistentEdits

/-!
# Attainable grammars

A grammar is attainable if it comes from its parts by operations, refused ones included, by conversions with
observers that edit the grammar themselves, and by copying. Attainable grammars are consistent.
-/

namespace ContextFree

/-- The second grammar comes from the first by operations and by conversions whose observers change the grammar
in the same way. Any of them may be refused or stopped on the way. -/
inductive Becomes : Grammar → Grammar → Prop where
  | refl (g : Grammar) : Becomes g g
  | operation {g h : Grammar} (op : Operation) (before : Becomes g h) : Becomes g (stateAfter op.edit h)
  | normalize {ω : Type} {g h : Grammar} (observer : Observer ω) (records : ω)
      (editing : ∀ stage k r, Becomes k (stateAfter (observer stage) (k, r)).1) (before : Becomes g h) :
      Becomes g (stateAfter (Grammar.normalize observer) (h, records)).1

/-- Whatever the observer does to the grammar, it does by operations and conversions. -/
def Observer.Editing {ω : Type} (observer : Observer ω) : Prop :=
  ∀ stage g records, Becomes g (stateAfter (observer stage) (g, records)).1

/-- The observer leaves the grammar alone, though it may stop the conversion. -/
def Observer.Idle {ω : Type} (observer : Observer ω) : Prop :=
  ∀ stage g records, (stateAfter (observer stage) (g, records)).1 = g

/-- The observer never stops the conversion. -/
def Observer.Patient {ω : Type} (observer : Observer ω) : Prop :=
  ∀ stage s, ∃ s', observer stage s = .ok () s'

/-- Grammars that come from their parts by operations, conversions and copying. -/
inductive Attainable : Grammar → Prop where
  | ofParts {start : Symbol} {terminals nonterminals : List Symbol} {rules : List Rule} {namer : Namer}
      {g : Grammar} (built : Grammar.ofParts start terminals nonterminals rules namer = .ok g) : Attainable g
  | becomes {g h : Grammar} (before : Attainable g) (steps : Becomes g h) : Attainable h
  | refiled {g h : Grammar} (before : Attainable g) (copied : g.refiled = .ok h) : Attainable h
  | normalized {ω : Type} {g h : Grammar} (before : Attainable g) (observer : Observer ω) (records : ω)
      (editing : observer.Editing) (converted : (g.normalized observer records).1 = .ok h) : Attainable h

lemma Becomes.trans {g h k : Grammar} (hgh : Becomes g h) (hhk : Becomes h k) : Becomes g k := by
  induction hhk with
  | refl => exact hgh
  | operation op _ ih => exact .operation op (ih hgh)
  | normalize observer records editing _ _ ih => exact .normalize observer records editing (ih hgh)

lemma Becomes.stage (stage : Stage) (g : Grammar) : Becomes g (stateAfter stage.edit g) := by
  have hstate : stateAfter (Operation.stage stage).edit g = stateAfter stage.edit g := by
    change stateAfter (stage.edit >>= fun _ => pure none) g = _
    cases h : stage.edit g with
    | ok a g' =>
      rw [stateAfter_of_ok h]
      exact stateAfter_of_ok (a := none) (bind_of_ok h)
    | error e g' => rw [stateAfter_of_error h, stateAfter_of_error (bind_of_error h)]
  rw [← hstate]
  exact .operation _ (.refl g)

namespace Grammar

lemma keeps_normalize {ω : Type} {P : Grammar → Prop} {observer : Observer ω}
    (hstage : ∀ stage : Stage, Keeps P stage.edit)
    (hobserver : ∀ stage, Keeps (fun s : Grammar × ω => P s.1) (observer stage)) :
    Keeps (fun s : Grammar × ω => P s.1) (normalize observer) := by
  apply Keeps.forM
  intro stage _
  refine Keeps.bind (Keeps.ofEdit (hstage stage)) fun _ => ?_
  exact Keeps.adaptExcept _ (hobserver stage)

/-- A grammar with a start symbol and nothing else. -/
def seed (start : Symbol) (namer : Namer) : Grammar :=
  ⟨start, [], [start], [], namer, ∅, (∅ : Std.ExtTreeSet Symbol).insert start, ∅, ∅⟩

lemma build_eq {start : Symbol} (terminals nonterminals : List Symbol) (rules : List Rule) (namer : Namer)
    (hstart : start ≠ "") :
    build start terminals nonterminals rules (empty namer) =
      (do insertTerminals terminals; insertNonterminals nonterminals; insertRules rules : Edit Unit)
        (seed start namer) := by
  have hinsert : insertNonterminal start (empty namer) = .ok () { seed start namer with start := "" } := by
    apply guarded_eq_ok
    simp [newSymbolCause?, hstart, empty, isTerminal, isNonterminal]
  have hset : setStart start { seed start namer with start := "" } = .ok () (seed start namer) := by
    apply guarded_eq_ok
    simp [isNonterminal, seed]
  unfold build
  rw [bind_of_ok hinsert, bind_of_ok hset]

namespace Consistent

variable {g : Grammar}

lemma becomes {h : Grammar} (hg : g.Consistent) (hgh : Becomes g h) : h.Consistent := by
  induction hgh with
  | refl => exact hg
  | operation op _ ih => exact keeps_operation op _ (ih hg)
  | normalize observer records _ _ ihediting ih =>
    have hkeeps := keeps_normalize keeps_stage fun stage s hs => ihediting stage s.1 s.2 hs
    exact hkeeps (_, records) (ih hg)

lemma seed {start : Symbol} (namer : Namer) (hstart : start ≠ "") : (seed start namer).Consistent where
  symbols_nodup := by simp [symbols, Grammar.seed]
  symbols_ne_empty := by simpa [symbols, Grammar.seed] using hstart
  start_mem := by simp [Grammar.seed]
  left_mem := by simp [Grammar.seed]
  right_mem := by simp [Grammar.seed]
  rules_nodup := by simp [Grammar.seed]
  mem_terminalIndex := by simp [Grammar.seed]
  mem_nonterminalIndex := by simp [Grammar.seed, eq_comm (b := start)]
  mem_ruleIndex := by simp [Grammar.seed]
  getElem?_mentions := by simp [Grammar.seed, mentionCount]

lemma ofParts {start : Symbol} {terminals nonterminals : List Symbol} {rules : List Rule} {namer : Namer}
    (built : Grammar.ofParts start terminals nonterminals rules namer = .ok g) : g.Consistent := by
  have hstart : start ≠ "" := by
    rintro rfl
    cases built
  unfold Grammar.ofParts at built
  rw [build_eq terminals nonterminals rules namer hstart] at built
  have hkeeps : Keeps Consistent
      (do insertTerminals terminals; insertNonterminals nonterminals; insertRules rules : Edit Unit) := by
    refine Keeps.bind (Keeps.forM fun t _ => keeps_insertTerminal t) fun _ => ?_
    refine Keeps.bind (Keeps.forM fun n _ => keeps_insertNonterminal n) fun _ => ?_
    exact Keeps.forM fun r _ => keeps_insertRule r
  have hafter := hkeeps _ (seed namer hstart)
  split at built
  · next h =>
    cases built
    rwa [stateAfter_of_ok h] at hafter
  · cases built

lemma cleared (hg : g.Consistent) : Consistent { g with rules := [], ruleIndex := ∅, mentions := ∅ } where
  symbols_nodup := hg.symbols_nodup
  symbols_ne_empty := hg.symbols_ne_empty
  start_mem := hg.start_mem
  left_mem := by simp
  right_mem := by simp
  rules_nodup := by simp
  mem_terminalIndex := hg.mem_terminalIndex
  mem_nonterminalIndex := hg.mem_nonterminalIndex
  mem_ruleIndex := by simp
  getElem?_mentions := by simp [mentionCount]

lemma refiled {h : Grammar} (hg : g.Consistent) (copied : g.refiled = .ok h) : h.Consistent := by
  have hkeeps : Keeps Consistent (insertRules g.rules) := Keeps.forM fun r _ => keeps_insertRule r
  have hafter := hkeeps _ hg.cleared
  unfold Grammar.refiled at copied
  split at copied
  · next hok =>
    cases copied
    rwa [stateAfter_of_ok hok] at hafter
  · cases copied

end Consistent

lemma ofParts_eq_ok (start : Symbol) (terminals nonterminals : List Symbol) (rules : List Rule)
    (namer : Namer) (hnodup : (start :: (terminals ++ nonterminals)).Nodup)
    (hne : ∀ s ∈ start :: (terminals ++ nonterminals), s ≠ "")
    (hleft : ∀ r ∈ rules, r.left ∈ start :: nonterminals)
    (hright : ∀ r ∈ rules, ∀ s ∈ r.right, s ∈ start :: (terminals ++ nonterminals)) (hrules : rules.Nodup) :
    ∃ g, ofParts start terminals nonterminals rules namer = .ok g ∧
      g.contents = ⟨start, terminals, start :: nonterminals, rules, namer⟩ := by
  obtain ⟨hstart, hnodup⟩ := List.nodup_cons.mp hnodup
  obtain ⟨hnets, hnens, hdisj⟩ := List.nodup_append'.mp hnodup
  obtain ⟨hs, hne⟩ := List.forall_mem_cons.mp hne
  have hrun : Succeeds
      (do insertTerminals terminals; insertNonterminals nonterminals; insertRules rules : Edit Unit)
      (seed start namer) fun _ g => g.contents = ⟨start, terminals, start :: nonterminals, rules, namer⟩ := by
    refine Succeeds.bind ((Consistent.seed namer hs).succeeds_insertTerminals hnets
      (fun t ht => hne t (List.mem_append_left _ ht)) fun t ht => ?_) ?_
    · simp only [symbols, seed, List.nil_append, List.mem_singleton]
      exact fun h => hstart (h ▸ List.mem_append_left _ ht)
    rintro _ g₁ ⟨hg₁, hc₁⟩
    have hterm₁ : g₁.terminals = terminals := congrArg Contents.terminals hc₁
    have hnon₁ : g₁.nonterminals = [start] := congrArg Contents.nonterminals hc₁
    refine Succeeds.bind (hg₁.succeeds_insertNonterminals hnens
      (fun n hn => hne n (List.mem_append_right _ hn)) fun n hn => ?_) ?_
    · rw [symbols, hterm₁, hnon₁, List.mem_append, List.mem_singleton]
      rintro (h | rfl)
      · exact hdisj h hn
      · exact hstart (List.mem_append_right _ hn)
    rintro _ g₂ ⟨hg₂, hc₂⟩
    rw [hc₁, hnon₁] at hc₂
    have hnon₂ : g₂.nonterminals = start :: nonterminals := congrArg Contents.nonterminals hc₂
    have hterm₂ : g₂.terminals = terminals := congrArg Contents.terminals hc₂
    have hrules₂ : g₂.rules = [] := congrArg Contents.rules hc₂
    refine (hg₂.succeeds_insertRules hrules (by rwa [hnon₂]) ?_ (by simp [hrules₂])).mono ?_
    · intro r hr s hs
      have := hright r hr s hs
      rw [symbols, hterm₂, hnon₂]
      simp only [List.mem_cons, List.mem_append] at this ⊢
      tauto
    · rintro _ g₃ ⟨-, hc₃⟩
      rw [hc₃, hc₂, hrules₂]
      rfl
  obtain ⟨_, g, hok, hcontents⟩ := hrun
  refine ⟨g, ?_, hcontents⟩
  unfold ofParts
  rw [build_eq terminals nonterminals rules namer hs, hok]

end Grammar

lemma Attainable.consistent {g : Grammar} (hg : Attainable g) : g.Consistent := by
  induction hg with
  | ofParts built => exact .ofParts built
  | becomes _ steps ih => exact ih.becomes steps
  | refiled _ copied ih => exact ih.refiled copied
  | @normalized ω g h _ observer records editing converted ih =>
    unfold Grammar.normalized at converted
    cases hcopy : g.refiled with
    | error e => simp [hcopy] at converted
    | ok copy =>
      have hafter : (stateAfter (Grammar.normalize observer) (copy, records)).1.Consistent :=
        (ih.refiled hcopy).becomes (.normalize observer records editing (.refl copy))
      simp only [hcopy] at converted
      cases hrun : Grammar.normalize observer (copy, records) with
      | ok a s =>
        simp only [hrun, Except.ok.injEq] at converted
        rw [stateAfter_of_ok hrun] at hafter
        rwa [← converted]
      | error e s => simp [hrun] at converted

/-- Whatever has happened to an attainable grammar, its lists fit together, and its indexes say what the lists
say: a symbol is on file as often as there are rules that mention it, on either side, each counted once. -/
theorem attainable_lists_and_indexes_agree {g : Grammar} (hg : Attainable g) :
    g.terminals.Nodup ∧ g.nonterminals.Nodup ∧ (∀ s ∈ g.terminals, s ∉ g.nonterminals) ∧
    "" ∉ g.terminals ∧ "" ∉ g.nonterminals ∧
    g.start ∈ g.nonterminals ∧
    (∀ r ∈ g.rules, r.left ∈ g.nonterminals ∧ ∀ s ∈ r.right, s ∈ g.terminals ∨ s ∈ g.nonterminals) ∧
    g.rules.Nodup ∧
    (∀ s, s ∈ g.terminalIndex ↔ s ∈ g.terminals) ∧
    (∀ s, s ∈ g.nonterminalIndex ↔ s ∈ g.nonterminals) ∧
    (∀ key, key ∈ g.ruleIndex ↔ ∃ r ∈ g.rules, r.key = key) ∧
    ∀ s, g.mentions[s]? =
      if (g.rules.countP fun r => s = r.left ∨ s ∈ r.right) = 0 then none
      else some (g.rules.countP fun r => s = r.left ∨ s ∈ r.right) := by
  have h := hg.consistent
  obtain ⟨hterm, hnon, -⟩ := List.nodup_append'.mp h.symbols_nodup
  refine ⟨hterm, hnon, fun s => h.disjoint, ?_, ?_, h.start_mem, ?_, h.rules_nodup, h.mem_terminalIndex,
    h.mem_nonterminalIndex, h.mem_ruleIndex, ?_⟩
  · exact fun he => h.symbols_ne_empty "" (List.mem_append_left _ he) rfl
  · exact fun he => h.symbols_ne_empty "" (List.mem_append_right _ he) rfl
  · exact fun r hr => ⟨h.left_mem r hr, fun s hs => List.mem_append.mp (h.right_mem r hr s hs)⟩
  · intro s
    have hcount : g.mentionCount s = g.rules.countP fun r => s = r.left ∨ s ∈ r.right := by
      unfold Grammar.mentionCount
      congr 1
      funext r
      simp [Rule.mem_symbols]
    rw [← hcount]
    exact h.getElem?_mentions s

/-- In the rule `S -> a S a` either symbol counts once. -/
theorem mentions_of_palindromes :
    ∃ g, Grammar.ofParts "S" ["a"] [] [⟨"S", ["a", "S", "a"]⟩, ⟨"S", []⟩] .standard = .ok g ∧
      g.mentions["a"]? = some 1 ∧ g.mentions["S"]? = some 2 ∧ g.mentions["b"]? = none := by
  obtain ⟨g, hg, hcontents⟩ := Grammar.ofParts_eq_ok "S" ["a"] [] [⟨"S", ["a", "S", "a"]⟩, ⟨"S", []⟩]
    .standard (by decide) (by decide) (by decide) (by decide) (by decide)
  have hrules : g.rules = [⟨"S", ["a", "S", "a"]⟩, ⟨"S", []⟩] := congrArg Grammar.Contents.rules hcontents
  obtain ⟨-, -, -, -, -, -, -, -, -, -, -, hmentions⟩ := attainable_lists_and_indexes_agree (.ofParts hg)
  rw [hrules] at hmentions
  exact ⟨g, hg, hmentions "a", hmentions "S", hmentions "b"⟩

end ContextFree

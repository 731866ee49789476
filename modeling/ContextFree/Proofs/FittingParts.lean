import ContextFree.Proofs.Attainability

/-!
# Parts that fit together

A grammar is made of its start symbol, terminals, nonterminals and rules by adding one part after the other. Whether a
part can be added, and why it cannot, depends on the parts before it alone: a grammar that is being made holds them
and nothing else. If each part fits then the parts as a whole fit together, and conversely; and if one does not, then
the error is that of the first that does not.
-/

namespace ContextFree

/-- One of the things a grammar is made of. The start symbol goes in as a nonterminal. -/
inductive Part where
  | terminal (t : Symbol)
  | nonterminal (n : Symbol)
  | rule (r : Rule)
deriving DecidableEq, Repr

namespace Part

/-- The parts of a grammar in the order in which they go in. -/
def all (start : Symbol) (terminals nonterminals : List Symbol) (rules : List Rule) : List Part :=
  nonterminal start :: (terminals.map terminal ++ (nonterminals.map nonterminal ++ rules.map rule))

/-- Why a symbol cannot go in as a new one after other parts. -/
def symbolCause? (before : List Part) (s : Symbol) : Option Cause :=
  if s = "" then some .emptySymbol
  else if terminal s ∈ before then some .terminalExists
  else if nonterminal s ∈ before then some .nonterminalExists
  else none

/-- Why a part cannot go in after other parts. -/
def cause? (before : List Part) : Part → Option Cause
  | terminal t => symbolCause? before t
  | nonterminal n => symbolCause? before n
  | rule r =>
    if nonterminal r.left ∉ before then some .nonterminalNotFound
    else if ∃ s ∈ r.right, terminal s ∉ before ∧ nonterminal s ∉ before then some .symbolNotFound
    else if rule r ∈ before then some .ruleExists
    else none

/-- Every part can go in after those before it. -/
inductive Fit : List Part → Prop where
  | nil : Fit []
  | snoc {before : List Part} {part : Part} (fit : Fit before) (next : part.cause? before = none) :
      Fit (before ++ [part])

def insert : Part → Edit Unit
  | terminal t => Grammar.insertTerminal t
  | nonterminal n => Grammar.insertNonterminal n
  | rule r => Grammar.insertRule r

def terminal? : Part → Option Symbol
  | terminal t => some t
  | _ => none

def nonterminal? : Part → Option Symbol
  | nonterminal n => some n
  | _ => none

def rule? : Part → Option Rule
  | rule r => some r
  | _ => none

lemma keeps_insert (part : Part) : Keeps Grammar.Consistent part.insert := by
  cases part with
  | terminal t => exact Grammar.Consistent.keeps_insertTerminal t
  | nonterminal n => exact Grammar.Consistent.keeps_insertNonterminal n
  | rule r => exact Grammar.Consistent.keeps_insertRule r

lemma mem_filterMap {α : Type} {read : Part → Option α} {make : α → Part}
    (hread : ∀ part a, read part = some a ↔ part = make a) {parts : List Part} {a : α} :
    a ∈ parts.filterMap read ↔ make a ∈ parts := by
  simp [List.mem_filterMap, hread]

end Part

namespace Grammar

variable {g : Grammar} {start s : Symbol} {namer : Namer} {before : List Part} {r : Rule}

/-- The lists of a grammar that is being made of parts. -/
def Contents.ofList (start : Symbol) (namer : Namer) (parts : List Part) : Contents :=
  ⟨start, parts.filterMap Part.terminal?, parts.filterMap Part.nonterminal?, parts.filterMap Part.rule?, namer⟩

lemma Contents.ofList_all (start : Symbol) (terminals nonterminals : List Symbol) (rules : List Rule) (namer : Namer) :
    Contents.ofList start namer (Part.all start terminals nonterminals rules) =
      ⟨start, terminals, start :: nonterminals, rules, namer⟩ := by
  simp [Contents.ofList, Part.all, List.filterMap_cons, Function.comp_def, Part.terminal?, Part.nonterminal?,
    Part.rule?]

/-- A grammar that holds the parts so far and nothing else. -/
structure Filed (start : Symbol) (namer : Namer) (before : List Part) (g : Grammar) : Prop where
  fit : Part.Fit before
  consistent : g.Consistent
  contents_eq : g.contents = .ofList start namer before

namespace Filed

lemma seed (namer : Namer) (hstart : start ≠ "") : Filed start namer [.nonterminal start] (seed start namer) where
  fit := .snoc .nil (by simp [Part.cause?, Part.symbolCause?, hstart])
  consistent := .seed namer hstart
  contents_eq := rfl

variable (h : Filed start namer before g)

include h

lemma isTerminal_iff : g.isTerminal s = true ↔ .terminal s ∈ before := by
  have hterminals : g.terminals = before.filterMap Part.terminal? := congrArg Contents.terminals h.contents_eq
  rw [h.consistent.isTerminal_iff, hterminals, Part.mem_filterMap]
  intro part t
  cases part <;> simp [Part.terminal?]

lemma isNonterminal_iff : g.isNonterminal s = true ↔ .nonterminal s ∈ before := by
  have hnonterminals : g.nonterminals = before.filterMap Part.nonterminal? :=
    congrArg Contents.nonterminals h.contents_eq
  rw [h.consistent.isNonterminal_iff, hnonterminals, Part.mem_filterMap]
  intro part n
  cases part <;> simp [Part.nonterminal?]

lemma hasRule_iff : g.hasRule r = true ↔ .rule r ∈ before := by
  have hrules : g.rules = before.filterMap Part.rule? := congrArg Contents.rules h.contents_eq
  rw [h.consistent.hasRule_iff, hrules, Part.mem_filterMap]
  intro part o
  cases part <;> simp [Part.rule?]

lemma newSymbolCause?_eq (s : Symbol) : g.newSymbolCause? s = Part.symbolCause? before s := by
  unfold newSymbolCause? Part.symbolCause?
  simp only [h.isTerminal_iff, h.isNonterminal_iff]

lemma kind_insertRuleRefusal? (r : Rule) :
    (g.insertRuleRefusal? r).map Error.kind = ((Part.rule r).cause? before).map .refused := by
  have hknown : ∀ s, g.hasSymbol s = false ↔ .terminal s ∉ before ∧ .nonterminal s ∉ before := by
    intro s
    rw [← h.isTerminal_iff, ← h.isNonterminal_iff, hasSymbol, Bool.or_eq_false_iff]
    simp
  unfold insertRuleRefusal? Part.cause?
  simp only [Bool.not_eq_true', ← Bool.not_eq_true, h.isNonterminal_iff, h.hasRule_iff]
  by_cases hleft : .nonterminal r.left ∈ before
  · rw [if_neg (not_not.mpr hleft), if_neg (not_not.mpr hleft)]
    cases hfind : r.right.find? fun s => !g.hasSymbol s with
    | some s =>
      have hs : g.hasSymbol s = false := by simpa using List.find?_some hfind
      have hany : ∃ s ∈ r.right, .terminal s ∉ before ∧ .nonterminal s ∉ before :=
        ⟨s, List.mem_of_find?_eq_some hfind, (hknown s).mp hs⟩
      rw [if_pos hany]
      rfl
    | none =>
      have hnone : ¬∃ s ∈ r.right, .terminal s ∉ before ∧ .nonterminal s ∉ before := by
        rintro ⟨s, hs, hunknown⟩
        simpa [(hknown s).mpr hunknown] using List.find?_eq_none.mp hfind s hs
      rw [if_neg hnone]
      split_ifs <;> rfl
  · rw [if_pos hleft, if_pos hleft]
    rfl

lemma guarded_cases {part : Part} {refusal : Grammar → Option Error} {update : Grammar → Grammar}
    (hinsert : part.insert = Edit.guarded refusal update)
    (hkind : (refusal g).map Error.kind = (part.cause? before).map .refused)
    (hcontents : (update g).contents = .ofList start namer (before ++ [part])) :
    (∃ g', part.insert g = .ok () g' ∧ Filed start namer (before ++ [part]) g') ∨
      ∃ cause e, part.cause? before = some cause ∧ part.insert g = .error e g ∧ e.kind = .refused cause := by
  have hkept := part.keeps_insert g h.consistent
  rw [hinsert] at hkept ⊢
  unfold Edit.guarded stateAfter at *
  cases hrefusal : refusal g with
  | none =>
    simp only [hrefusal] at hkept
    rw [hrefusal, Option.map_none, eq_comm, Option.map_eq_none_iff] at hkind
    exact .inl ⟨update g, rfl, .snoc h.fit hkind, hkept, hcontents⟩
  | some e =>
    rw [hrefusal, Option.map_some, eq_comm, Option.map_eq_some_iff] at hkind
    obtain ⟨cause, hcause, hkind⟩ := hkind
    exact .inr ⟨cause, e, hcause, rfl, hkind.symm⟩

lemma insert_cases (part : Part) :
    (∃ g', part.insert g = .ok () g' ∧ Filed start namer (before ++ [part]) g') ∨
      ∃ cause e, part.cause? before = some cause ∧ part.insert g = .error e g ∧ e.kind = .refused cause := by
  obtain ⟨hstart, hterminals, hnonterminals, hrules, hnamer⟩ := Contents.mk.inj h.contents_eq
  cases part with
  | terminal t =>
    apply h.guarded_cases rfl
    · rw [h.newSymbolCause?_eq, Option.map_map]
      rfl
    · simp [contents, Contents.ofList, List.filterMap_cons, Part.terminal?, Part.nonterminal?, Part.rule?, *]
  | nonterminal n =>
    apply h.guarded_cases rfl
    · rw [h.newSymbolCause?_eq, Option.map_map]
      rfl
    · simp [contents, Contents.ofList, List.filterMap_cons, Part.terminal?, Part.nonterminal?, Part.rule?, *]
  | rule r =>
    apply h.guarded_cases rfl
    · exact h.kind_insertRuleRefusal? r
    · simp [contents, pushRule, Contents.ofList, List.filterMap_cons, Part.terminal?, Part.nonterminal?, Part.rule?, *]

/-- Parts go in one after the other, up to the first that does not fit. -/
lemma forM_cases (parts : List Part) :
    (∃ g', parts.forM Part.insert g = .ok () g' ∧ Filed start namer (before ++ parts) g') ∨
      ∃ done part after cause e g', parts = done ++ part :: after ∧ Part.Fit (before ++ done) ∧
        part.cause? (before ++ done) = some cause ∧ parts.forM Part.insert g = .error e g' ∧
        e.kind = .refused cause := by
  induction parts generalizing before g with
  | nil => exact .inl ⟨g, rfl, by simpa using h⟩
  | cons part parts ih =>
    rcases h.insert_cases part with ⟨g₁, hok, h₁⟩ | ⟨cause, e, hcause, herror, hkind⟩
    · rw [forM_cons_of_ok parts hok]
      rcases ih h₁ with ⟨g', hrun, h'⟩ | ⟨done, x, after, cause, e, g', rfl, hfit, hrest⟩
      · exact .inl ⟨g', hrun, by simpa using h'⟩
      · rw [List.append_assoc, List.singleton_append] at hfit hrest
        exact .inr ⟨part :: done, x, after, cause, e, g', rfl, hfit, hrest⟩
    · refine .inr ⟨[], part, parts, cause, e, g, rfl, ?_, ?_, forM_cons_of_error parts herror, hkind⟩
      · simpa using h.fit
      · simpa using hcause

end Filed

lemma forM_parts (terminals nonterminals : List Symbol) (rules : List Rule) :
    (do insertTerminals terminals; insertNonterminals nonterminals; insertRules rules : Edit Unit) =
      (terminals.map Part.terminal ++ (nonterminals.map Part.nonterminal ++ rules.map Part.rule)).forM
        Part.insert := by
  simp [List.forM_eq_forM]
  rfl

lemma ofParts_cases (start : Symbol) (terminals nonterminals : List Symbol) (rules : List Rule) (namer : Namer) :
    (∃ g, ofParts start terminals nonterminals rules namer = .ok g ∧
      g.contents = ⟨start, terminals, start :: nonterminals, rules, namer⟩) ∨
    ∃ before part after cause e, ofParts start terminals nonterminals rules namer = .error e ∧
      Part.all start terminals nonterminals rules = before ++ part :: after ∧ Part.Fit before ∧
      part.cause? before = some cause ∧ e.kind = .refused cause := by
  by_cases hstart : start = ""
  · subst hstart
    exact .inr ⟨[], .nonterminal "", _, .emptySymbol, _, rfl, rfl, .nil, rfl, rfl⟩
  unfold ofParts
  rw [build_eq terminals nonterminals rules namer hstart, forM_parts]
  rcases (Filed.seed namer hstart).forM_cases
      (terminals.map .terminal ++ (nonterminals.map .nonterminal ++ rules.map .rule)) with
    ⟨g, hrun, hfiled⟩ | ⟨done, part, after, cause, e, g, hparts, hfit, hcause, hrun, hkind⟩
  · refine .inl ⟨g, by rw [hrun], ?_⟩
    rw [← Contents.ofList_all]
    exact hfiled.contents_eq
  · refine .inr ⟨.nonterminal start :: done, part, after, cause, .construction e, by rw [hrun], ?_, hfit, hcause, hkind⟩
    rw [Part.all, hparts, List.cons_append]

section Made

variable {terminals nonterminals : List Symbol} {rules : List Rule}
  (hg : ofParts start terminals nonterminals rules namer = .ok g)

include hg

lemma contents_of_ofParts : g.contents = ⟨start, terminals, start :: nonterminals, rules, namer⟩ := by
  rcases ofParts_cases start terminals nonterminals rules namer with ⟨g', hg', hcontents⟩ | ⟨_, _, _, _, e, he, -⟩
  · rw [hg] at hg'
    cases hg'
    exact hcontents
  · rw [hg] at he
    cases he

lemma valid_of_ofParts :
    "" ∉ start :: (terminals ++ nonterminals) ∧ (start :: (terminals ++ nonterminals)).Nodup ∧
    (∀ r ∈ rules, r.left = start ∨ r.left ∈ nonterminals) ∧
    (∀ r ∈ rules, ∀ s ∈ r.right, s = start ∨ s ∈ terminals ∨ s ∈ nonterminals) ∧ rules.Nodup := by
  have hc := Consistent.ofParts hg
  obtain ⟨-, hterminals, hnonterminals, hrules, -⟩ := Contents.mk.inj (contents_of_ofParts hg)
  have hperm : g.symbols.Perm (start :: (terminals ++ nonterminals)) := by
    rw [symbols, hterminals, hnonterminals]
    exact List.perm_middle
  refine ⟨?_, hperm.nodup_iff.mp hc.symbols_nodup, ?_, ?_, hrules ▸ hc.rules_nodup⟩
  · intro hempty
    exact hc.symbols_ne_empty "" (hperm.mem_iff.mpr hempty) rfl
  · intro r hr
    have hleft := hc.left_mem r (hrules ▸ hr)
    rwa [hnonterminals, List.mem_cons] at hleft
  · intro r hr s hs
    have hright := hperm.mem_iff.mp (hc.right_mem r (hrules ▸ hr) s hs)
    rwa [List.mem_cons, List.mem_append] at hright

end Made

/-- A grammar can be made of its parts exactly if the symbols are not empty and all different, the rules are about
these symbols and for nonterminals among them, and no rule is given twice. It then consists of the parts in their
order. Otherwise the error is about the first part that does not fit the parts before it. -/
theorem parts_make_a_grammar_iff_valid (start : Symbol) (terminals nonterminals : List Symbol) (rules : List Rule)
    (namer : Namer) :
    ((∃ g, ofParts start terminals nonterminals rules namer = .ok g) ↔
      "" ∉ start :: (terminals ++ nonterminals) ∧ (start :: (terminals ++ nonterminals)).Nodup ∧
      (∀ r ∈ rules, r.left = start ∨ r.left ∈ nonterminals) ∧
      (∀ r ∈ rules, ∀ s ∈ r.right, s = start ∨ s ∈ terminals ∨ s ∈ nonterminals) ∧ rules.Nodup) ∧
    (∀ g, ofParts start terminals nonterminals rules namer = .ok g →
      g.contents = ⟨start, terminals, start :: nonterminals, rules, namer⟩) ∧
    ∀ e, ofParts start terminals nonterminals rules namer = .error e →
      ∃ before part after cause, Part.all start terminals nonterminals rules = before ++ part :: after ∧
        Part.Fit before ∧ part.cause? before = some cause ∧ e.kind = .refused cause := by
  refine ⟨⟨fun ⟨_, hg⟩ => valid_of_ofParts hg, ?_⟩, fun _ hg => contents_of_ofParts hg, ?_⟩
  · rintro ⟨hne, hnodup, hleft, hright, hrules⟩
    obtain ⟨g, hg, -⟩ := ofParts_eq_ok start terminals nonterminals rules namer hnodup
      (fun s hs heq => hne (heq ▸ hs)) (by simpa using hleft) (by simpa using hright) hrules
    exact ⟨g, hg⟩
  · intro e he
    rcases ofParts_cases start terminals nonterminals rules namer with
      ⟨g, hg, -⟩ | ⟨before, part, after, cause, e', he', hrest⟩
    · rw [hg] at he
      cases he
    · rw [he] at he'
      cases he'
      exact ⟨before, part, after, cause, hrest⟩

end Grammar

end ContextFree

import ContextFree.Grammar.Consistent
import ContextFree.Proofs.QuotedKeys
import ContextFree.Proofs.Runs

/-!
# Elementary edits keep a grammar consistent

Each elementary edit changes one list and the indexes that belong to it. Whatever an edit refuses, what it does
not refuse keeps the grammar consistent; and a consistent grammar refuses an edit for the reasons that its lists
give, since the keys of rules are injective.
-/

namespace ContextFree

lemma Rule.mem_symbols {r : Rule} {s : Symbol} : s ∈ r.symbols ↔ s = r.left ∨ s ∈ r.right := by
  simp [Rule.symbols, List.mem_eraseDups]

lemma nodup_eraseDups {α : Type} [BEq α] [LawfulBEq α] (l : List α) : l.eraseDups.Nodup := by
  match l with
  | [] => simp
  | s :: rest =>
    rw [List.eraseDups_cons, List.nodup_cons]
    refine ⟨?_, nodup_eraseDups (rest.filter fun t => !t == s)⟩
    simp [List.mem_eraseDups]
  termination_by l.length
  decreasing_by
    have := List.length_filter_le (fun t => !t == s) rest
    simp only [List.length_cons]
    omega

lemma Rule.symbols_nodup (r : Rule) : r.symbols.Nodup :=
  nodup_eraseDups _

lemma eq_singleton_of_nodup {α : Type} {l : List α} {a : α} (hl : l.Nodup) (h : ∀ x, x ∈ l ↔ x = a) : l = [a] := by
  apply List.perm_singleton.mp
  apply (List.perm_ext_iff_of_nodup hl (List.nodup_singleton a)).mpr
  simpa using h

lemma filter_not_contains_append {α : Type} [BEq α] (l gone more : List α) :
    (l.filter (!gone.contains ·)).filter (!more.contains ·) = l.filter (!(gone ++ more).contains ·) := by
  rw [List.filter_filter]
  congr 1
  funext x
  rw [List.contains_append, Bool.not_or, Bool.and_comm]

lemma filter_not_contains_concat {α : Type} [BEq α] (l gone : List α) (a : α) :
    (l.filter (!gone.contains ·)).filter (· != a) = l.filter (!(gone ++ [a]).contains ·) := by
  rw [← filter_not_contains_append]
  congr 1
  funext x
  rw [List.contains_cons, List.contains_nil, Bool.or_false]
  rfl

lemma map_eq_self {α : Type} {f : α → α} {l : List α} (h : ∀ a ∈ l, f a = a) : l.map f = l := by
  have hid : l.map f = l.map id := List.map_congr_left h
  rw [hid, List.map_id]

namespace Grammar

/-- What a grammar says, without its indexes. -/
structure Contents where
  start : Symbol
  terminals : List Symbol
  nonterminals : List Symbol
  rules : List Rule
  namer : Namer

namespace Contents

def withRules (c : Contents) (rules : List Rule) : Contents :=
  { c with rules := rules }

def withTerminals (c : Contents) (terminals : List Symbol) : Contents :=
  { c with terminals := terminals }

def withNonterminals (c : Contents) (nonterminals : List Symbol) : Contents :=
  { c with nonterminals := nonterminals }

def withStart (c : Contents) (start : Symbol) : Contents :=
  { c with start := start }

end Contents

def contents (g : Grammar) : Contents :=
  ⟨g.start, g.terminals, g.nonterminals, g.rules, g.namer⟩

/-- The grammars differ in their rules at most. -/
def RulesOnly (g g' : Grammar) : Prop :=
  g'.contents = g.contents.withRules g'.rules

namespace RulesOnly

variable {g g' g'' : Grammar}

lemma start_eq (h : RulesOnly g g') : g'.start = g.start :=
  congrArg Contents.start h

lemma terminals_eq (h : RulesOnly g g') : g'.terminals = g.terminals :=
  congrArg Contents.terminals h

lemma nonterminals_eq (h : RulesOnly g g') : g'.nonterminals = g.nonterminals :=
  congrArg Contents.nonterminals h

lemma trans (h : RulesOnly g g') (h' : RulesOnly g' g'') : RulesOnly g g'' := by
  unfold RulesOnly at *
  rw [h', h]
  rfl

end RulesOnly

lemma getElem?_addMention (mentions : Std.ExtTreeMap Symbol Nat) (s t : Symbol) :
    (addMention mentions s)[t]? = if s = t then some (mentions[t]?.getD 0 + 1) else mentions[t]? := by
  unfold addMention
  rw [Std.ExtTreeMap.getElem?_alter]
  by_cases h : s = t
  · subst h
    simp
  · simp [h]

lemma getElem?_foldl_addMention (l : List Symbol) (hl : l.Nodup) (mentions : Std.ExtTreeMap Symbol Nat)
    (t : Symbol) :
    (l.foldl addMention mentions)[t]? =
      if t ∈ l then some (mentions[t]?.getD 0 + 1) else mentions[t]? := by
  induction l generalizing mentions with
  | nil => simp
  | cons s l ih =>
    obtain ⟨hs, hl⟩ := List.nodup_cons.mp hl
    rw [List.foldl_cons, ih hl, getElem?_addMention]
    by_cases h : s = t
    · subst h
      simp [hs]
    · simp [h, Ne.symm h]

/-- The number of mentions on file when one is taken away. -/
def lessOne : Option Nat → Option Nat
  | some (count + 2) => some (count + 1)
  | _ => none

lemma lessOne_entry (count : Nat) :
    lessOne (if count = 0 then none else some count) = if count - 1 = 0 then none else some (count - 1) := by
  rcases count with _ | _ | count <;> rfl

lemma getElem?_removeMention (mentions : Std.ExtTreeMap Symbol Nat) (s t : Symbol) :
    (removeMention mentions s)[t]? = if s = t then lessOne mentions[t]? else mentions[t]? := by
  unfold removeMention
  rw [Std.ExtTreeMap.getElem?_alter]
  by_cases h : s = t
  · subst h
    simp only [Std.ReflCmp.compare_self, if_true]
    rfl
  · simp [h]

lemma getElem?_foldl_removeMention (l : List Symbol) (hl : l.Nodup)
    (mentions : Std.ExtTreeMap Symbol Nat) (t : Symbol) :
    (l.foldl removeMention mentions)[t]? = if t ∈ l then lessOne mentions[t]? else mentions[t]? := by
  induction l generalizing mentions with
  | nil => simp
  | cons s l ih =>
    obtain ⟨hs, hl⟩ := List.nodup_cons.mp hl
    rw [List.foldl_cons, ih hl, getElem?_removeMention]
    by_cases h : s = t
    · subst h
      simp [hs]
    · simp [h, Ne.symm h]

namespace Consistent

variable {g : Grammar} {r : Rule} {s t n : Symbol}

lemma hasRule_iff (hg : g.Consistent) (r : Rule) : g.hasRule r = true ↔ r ∈ g.rules := by
  rw [hasRule, Std.ExtTreeSet.contains_iff_mem, hg.mem_ruleIndex]
  constructor
  · rintro ⟨o, ho, hkey⟩
    rwa [← Rule.key_inj.mp hkey]
  · exact fun hr => ⟨r, hr, rfl⟩

lemma terminals_nodup (hg : g.Consistent) : g.terminals.Nodup :=
  (List.nodup_append'.mp hg.symbols_nodup).1

lemma nonterminals_nodup (hg : g.Consistent) : g.nonterminals.Nodup :=
  (List.nodup_append'.mp hg.symbols_nodup).2.1

lemma disjoint (hg : g.Consistent) (ht : s ∈ g.terminals) : s ∉ g.nonterminals := by
  have hdisj := (List.nodup_append'.mp hg.symbols_nodup).2.2
  exact fun hn => hdisj ht hn

lemma insertTerminal (hg : g.Consistent) (hne : t ≠ "") (hnew : t ∉ g.symbols) :
    Consistent { g with terminals := g.terminals ++ [t], terminalIndex := g.terminalIndex.insert t } where
  symbols_nodup := by
    have hperm : (g.terminals ++ [t] ++ g.nonterminals).Perm (t :: g.symbols) := by
      rw [List.append_assoc]
      exact List.perm_middle
    exact hperm.nodup_iff.mpr (List.nodup_cons.mpr ⟨hnew, hg.symbols_nodup⟩)
  symbols_ne_empty s hs := by
    simp only [symbols, List.mem_append, List.mem_singleton] at hs
    rcases hs with (hs | rfl) | hs
    · exact hg.symbols_ne_empty s (List.mem_append_left _ hs)
    · exact hne
    · exact hg.symbols_ne_empty s (List.mem_append_right _ hs)
  start_mem := hg.start_mem
  left_mem := hg.left_mem
  right_mem o ho s hs := by
    have := hg.right_mem o ho s hs
    simp only [symbols, List.mem_append] at this ⊢
    tauto
  rules_nodup := hg.rules_nodup
  mem_terminalIndex s := by simp [hg.mem_terminalIndex, or_comm, eq_comm (a := s)]
  mem_nonterminalIndex := hg.mem_nonterminalIndex
  mem_ruleIndex := hg.mem_ruleIndex
  getElem?_mentions := hg.getElem?_mentions

lemma insertNonterminal (hg : g.Consistent) (hne : n ≠ "") (hnew : n ∉ g.symbols) :
    Consistent { g with
      nonterminals := g.nonterminals ++ [n], nonterminalIndex := g.nonterminalIndex.insert n } where
  symbols_nodup := by
    have hperm : (g.terminals ++ (g.nonterminals ++ [n])).Perm (n :: g.symbols) := by
      rw [← List.append_assoc]
      exact List.perm_append_singleton n _
    exact hperm.nodup_iff.mpr (List.nodup_cons.mpr ⟨hnew, hg.symbols_nodup⟩)
  symbols_ne_empty s hs := by
    simp only [symbols, List.mem_append, List.mem_singleton] at hs
    rcases hs with hs | hs | rfl
    · exact hg.symbols_ne_empty s (List.mem_append_left _ hs)
    · exact hg.symbols_ne_empty s (List.mem_append_right _ hs)
    · exact hne
  start_mem := List.mem_append_left _ hg.start_mem
  left_mem o ho := List.mem_append_left _ (hg.left_mem o ho)
  right_mem o ho s hs := by
    have := hg.right_mem o ho s hs
    simp only [symbols, List.mem_append] at this ⊢
    tauto
  rules_nodup := hg.rules_nodup
  mem_terminalIndex := hg.mem_terminalIndex
  mem_nonterminalIndex s := by simp [hg.mem_nonterminalIndex, or_comm, eq_comm (a := s)]
  mem_ruleIndex := hg.mem_ruleIndex
  getElem?_mentions := hg.getElem?_mentions

lemma eraseTerminal (hg : g.Consistent) (hunused : ∀ r ∈ g.rules, t ∉ r.right) :
    Consistent { g with terminals := g.terminals.erase t, terminalIndex := g.terminalIndex.erase t } where
  symbols_nodup := hg.symbols_nodup.sublist (List.erase_sublist.append_right _)
  symbols_ne_empty s hs := hg.symbols_ne_empty s ((List.erase_sublist.append_right _).subset hs)
  start_mem := hg.start_mem
  left_mem := hg.left_mem
  right_mem o ho s hs := by
    have hst : s ≠ t := fun h => hunused o ho (h ▸ hs)
    have := hg.right_mem o ho s hs
    simp only [symbols, List.mem_append] at this ⊢
    exact this.imp_left (List.mem_erase_of_ne hst).mpr
  rules_nodup := hg.rules_nodup
  mem_terminalIndex s := by
    simp [hg.mem_terminalIndex, hg.terminals_nodup.mem_erase_iff, eq_comm (a := s)]
  mem_nonterminalIndex := hg.mem_nonterminalIndex
  mem_ruleIndex := hg.mem_ruleIndex
  getElem?_mentions := hg.getElem?_mentions

lemma eraseNonterminal (hg : g.Consistent) (hunused : ∀ r ∈ g.rules, n ≠ r.left ∧ n ∉ r.right)
    (hstart : n ≠ g.start) :
    Consistent { g with
      nonterminals := g.nonterminals.erase n, nonterminalIndex := g.nonterminalIndex.erase n } where
  symbols_nodup := hg.symbols_nodup.sublist (List.erase_sublist.append_left _)
  symbols_ne_empty s hs := hg.symbols_ne_empty s ((List.erase_sublist.append_left _).subset hs)
  start_mem := (List.mem_erase_of_ne hstart.symm).mpr hg.start_mem
  left_mem o ho := (List.mem_erase_of_ne (hunused o ho).1.symm).mpr (hg.left_mem o ho)
  right_mem o ho s hs := by
    have hsn : s ≠ n := fun h => (hunused o ho).2 (h ▸ hs)
    have := hg.right_mem o ho s hs
    simp only [symbols, List.mem_append] at this ⊢
    exact this.imp_right (List.mem_erase_of_ne hsn).mpr
  rules_nodup := hg.rules_nodup
  mem_terminalIndex := hg.mem_terminalIndex
  mem_nonterminalIndex s := by
    simp [hg.mem_nonterminalIndex, hg.nonterminals_nodup.mem_erase_iff, eq_comm (a := s)]
  mem_ruleIndex := hg.mem_ruleIndex
  getElem?_mentions := hg.getElem?_mentions

lemma setStart (hg : g.Consistent) (hn : n ∈ g.nonterminals) : Consistent { g with start := n } :=
  { hg with start_mem := hn }

lemma pushRule (hg : g.Consistent) (hleft : r.left ∈ g.nonterminals) (hright : ∀ s ∈ r.right, s ∈ g.symbols)
    (hnew : r ∉ g.rules) : (g.pushRule r).Consistent where
  symbols_nodup := hg.symbols_nodup
  symbols_ne_empty := hg.symbols_ne_empty
  start_mem := hg.start_mem
  left_mem o ho := by
    rcases List.mem_append.mp ho with ho | ho
    · exact hg.left_mem o ho
    · rwa [List.mem_singleton.mp ho]
  right_mem o ho := by
    rcases List.mem_append.mp ho with ho | ho
    · exact hg.right_mem o ho
    · rwa [List.mem_singleton.mp ho]
  rules_nodup := by
    have hperm := List.perm_append_singleton r g.rules
    exact hperm.nodup_iff.mpr (List.nodup_cons.mpr ⟨hnew, hg.rules_nodup⟩)
  mem_terminalIndex := hg.mem_terminalIndex
  mem_nonterminalIndex := hg.mem_nonterminalIndex
  mem_ruleIndex key := by
    simp only [Grammar.pushRule, Std.ExtTreeSet.mem_insert, hg.mem_ruleIndex, List.mem_append,
      List.mem_singleton, Std.LawfulEqCmp.compare_eq_iff_eq]
    constructor
    · rintro (h | ⟨o, ho, h⟩)
      · exact ⟨r, .inr rfl, h⟩
      · exact ⟨o, .inl ho, h⟩
    · rintro ⟨o, ho | rfl, h⟩
      · exact .inr ⟨o, ho, h⟩
      · exact .inl h
  getElem?_mentions s := by
    have hcount : (g.pushRule r).mentionCount s = g.mentionCount s + if s ∈ r.symbols then 1 else 0 := by
      simp [mentionCount, Grammar.pushRule, List.countP_singleton]
    change (r.symbols.foldl addMention g.mentions)[s]? = _
    rw [getElem?_foldl_addMention _ r.symbols_nodup, hg.getElem?_mentions, hcount]
    by_cases hs : s ∈ r.symbols
    · simp only [hs, if_true]
      by_cases h0 : g.mentionCount s = 0 <;> simp [h0]
    · simp [hs]

lemma dropRule (hg : g.Consistent) (hr : r ∈ g.rules) : (g.dropRule r).Consistent where
  symbols_nodup := hg.symbols_nodup
  symbols_ne_empty := hg.symbols_ne_empty
  start_mem := hg.start_mem
  left_mem o ho := hg.left_mem o (List.mem_of_mem_erase ho)
  right_mem o ho := hg.right_mem o (List.mem_of_mem_erase ho)
  rules_nodup := hg.rules_nodup.erase r
  mem_terminalIndex := hg.mem_terminalIndex
  mem_nonterminalIndex := hg.mem_nonterminalIndex
  mem_ruleIndex key := by
    simp only [Grammar.dropRule, Std.ExtTreeSet.mem_erase, hg.mem_ruleIndex, hg.rules_nodup.mem_erase_iff,
      ne_eq, Std.LawfulEqCmp.compare_eq_iff_eq]
    constructor
    · rintro ⟨hne, o, ho, rfl⟩
      exact ⟨o, ⟨fun h => hne (congrArg Rule.key h).symm, ho⟩, rfl⟩
    · rintro ⟨o, ⟨hne, ho⟩, rfl⟩
      exact ⟨fun h => hne (Rule.key_inj.mp h).symm, o, ho, rfl⟩
  getElem?_mentions s := by
    have hcount : (g.dropRule r).mentionCount s = g.mentionCount s - if s ∈ r.symbols then 1 else 0 := by
      simp [mentionCount, Grammar.dropRule, List.countP_erase, hr]
    change (r.symbols.foldl removeMention g.mentions)[s]? = _
    rw [getElem?_foldl_removeMention _ r.symbols_nodup, hg.getElem?_mentions, hcount]
    by_cases hs : s ∈ r.symbols
    · simp only [hs, if_true]
      exact lessOne_entry _
    · simp [hs]

end Consistent

end Grammar

end ContextFree

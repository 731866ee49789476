import ContextFree.Grammar.Basic

/-!
# Consistent grammars

What every edit keeps: the lists fit together, and the indexes say what the lists say.
-/

namespace ContextFree.Grammar

/-- The number of rules that mention a symbol on either side. -/
def mentionCount (g : Grammar) (s : Symbol) : Nat :=
  g.rules.countP fun r => r.symbols.contains s

/-- The lists of a grammar fit together and its indexes agree with them. -/
structure Consistent (g : Grammar) : Prop where
  symbols_nodup : g.symbols.Nodup
  symbols_ne_empty : ∀ s ∈ g.symbols, s ≠ ""
  start_mem : g.start ∈ g.nonterminals
  left_mem : ∀ r ∈ g.rules, r.left ∈ g.nonterminals
  right_mem : ∀ r ∈ g.rules, ∀ s ∈ r.right, s ∈ g.symbols
  rules_nodup : g.rules.Nodup
  mem_terminalIndex : ∀ s, s ∈ g.terminalIndex ↔ s ∈ g.terminals
  mem_nonterminalIndex : ∀ s, s ∈ g.nonterminalIndex ↔ s ∈ g.nonterminals
  mem_ruleIndex : ∀ key, key ∈ g.ruleIndex ↔ ∃ r ∈ g.rules, r.key = key
  getElem?_mentions : ∀ s, g.mentions[s]? = if g.mentionCount s = 0 then none else some (g.mentionCount s)

namespace Consistent

variable {g h : Grammar}

theorem isTerminal_iff (hg : g.Consistent) (s : Symbol) : g.isTerminal s = true ↔ s ∈ g.terminals := by
  rw [isTerminal, Std.ExtTreeSet.contains_iff_mem, hg.mem_terminalIndex]

theorem isNonterminal_iff (hg : g.Consistent) (s : Symbol) :
    g.isNonterminal s = true ↔ s ∈ g.nonterminals := by
  rw [isNonterminal, Std.ExtTreeSet.contains_iff_mem, hg.mem_nonterminalIndex]

theorem hasSymbol_iff (hg : g.Consistent) (s : Symbol) : g.hasSymbol s = true ↔ s ∈ g.symbols := by
  rw [hasSymbol, Bool.or_eq_true, hg.isTerminal_iff, hg.isNonterminal_iff, symbols, List.mem_append]

theorem isMentioned_iff (hg : g.Consistent) (s : Symbol) :
    g.isMentioned s = true ↔ ∃ r ∈ g.rules, s = r.left ∨ s ∈ r.right := by
  have hcount : g.mentions.getD s 0 = g.mentionCount s := by
    rw [Std.ExtTreeMap.getD_eq_getD_getElem?, hg.getElem?_mentions]
    split <;> simp [*]
  rw [isMentioned, decide_eq_true_iff, hcount, mentionCount, List.countP_pos_iff]
  simp [Rule.symbols, List.mem_eraseDups]

/-- The indexes of a consistent grammar are determined by its lists. -/
theorem ext (hg : g.Consistent) (hh : h.Consistent) (start : g.start = h.start)
    (terminals : g.terminals = h.terminals) (nonterminals : g.nonterminals = h.nonterminals)
    (rules : g.rules = h.rules) (namer : g.namer = h.namer) : g = h := by
  have h₁ : g.terminalIndex = h.terminalIndex :=
    Std.ExtTreeSet.ext_mem fun s => by rw [hg.mem_terminalIndex, hh.mem_terminalIndex, terminals]
  have h₂ : g.nonterminalIndex = h.nonterminalIndex :=
    Std.ExtTreeSet.ext_mem fun s => by rw [hg.mem_nonterminalIndex, hh.mem_nonterminalIndex, nonterminals]
  have h₃ : g.ruleIndex = h.ruleIndex :=
    Std.ExtTreeSet.ext_mem fun key => by rw [hg.mem_ruleIndex, hh.mem_ruleIndex, rules]
  have h₄ : g.mentions = h.mentions :=
    Std.ExtTreeMap.ext_getElem? fun s => by
      rw [hg.getElem?_mentions, hh.getElem?_mentions, mentionCount, mentionCount, rules]
  cases g
  cases h
  simp_all

end Consistent

end ContextFree.Grammar

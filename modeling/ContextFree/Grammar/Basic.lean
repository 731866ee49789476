import Std.Data.ExtTreeMap
import Std.Data.ExtTreeSet
import ContextFree.Namer

/-!
# Grammars

A grammar lists its terminals, nonterminals and rules in the order in which they came. Beside the lists it
keeps indexes for quick answers: which symbols are terminals and which nonterminals, the keys of the rules, and
for every symbol the number of rules that mention it. Indexes are compared by content, so the lists of a
consistent grammar determine them.
-/

namespace ContextFree

/-- A context-free grammar with its indexes. -/
structure Grammar where
  start : Symbol
  terminals : List Symbol
  nonterminals : List Symbol
  rules : List Rule
  namer : Namer
  terminalIndex : Std.ExtTreeSet Symbol
  nonterminalIndex : Std.ExtTreeSet Symbol
  ruleIndex : Std.ExtTreeSet String
  /-- The number of rules that mention a symbol on either side; no entry for none. -/
  mentions : Std.ExtTreeMap Symbol Nat

namespace Grammar

/-- Nothing but a namer; a start symbol is still to be chosen. -/
def empty (namer : Namer) : Grammar where
  start := ""
  terminals := []
  nonterminals := []
  rules := []
  namer := namer
  terminalIndex := ∅
  nonterminalIndex := ∅
  ruleIndex := ∅
  mentions := ∅

def isTerminal (g : Grammar) (s : Symbol) : Bool :=
  g.terminalIndex.contains s

def isNonterminal (g : Grammar) (s : Symbol) : Bool :=
  g.nonterminalIndex.contains s

def hasSymbol (g : Grammar) (s : Symbol) : Bool :=
  g.isTerminal s || g.isNonterminal s

def hasRule (g : Grammar) (r : Rule) : Bool :=
  g.ruleIndex.contains r.key

/-- Some rule mentions the symbol. -/
def isMentioned (g : Grammar) (s : Symbol) : Bool :=
  0 < g.mentions.getD s 0

/-- The terminals, then the nonterminals. -/
def symbols (g : Grammar) : List Symbol :=
  g.terminals ++ g.nonterminals

/-- The first name of the grammar's namer that is usable for a new nonterminal. -/
def freshName (g : Grammar) : Symbol :=
  g.namer.firstUnused g.hasSymbol (g.namer.bound g.symbols)

end Grammar

end ContextFree

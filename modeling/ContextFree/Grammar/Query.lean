import ContextFree.BreadthFirst
import ContextFree.Grammar.Edit

/-!
# Questions to a grammar

Every list in an answer follows the order of the rules or of the symbols, except that reachable nonterminals
come in the order of their discovery.
-/

namespace ContextFree.Grammar

/-- The symbol is a terminal that some rule uses. -/
def usesTerminal (g : Grammar) (t : Symbol) : Bool :=
  g.isTerminal t && g.isMentioned t

/-- The symbol is a nonterminal that some rule has on its left or right side. -/
def usesNonterminal (g : Grammar) (n : Symbol) : Bool :=
  g.isNonterminal n && g.isMentioned n

def rulesWithLeft (g : Grammar) (n : Symbol) : List Rule :=
  g.rules.filter (·.left = n)

/-- The rules for a nonterminal. -/
def rulesFor (g : Grammar) (n : Symbol) : Except Error (List Rule) :=
  if g.isNonterminal n then .ok (g.rulesWithLeft n)
  else .error (.symbolRefused .rulesFor n .nonterminalNotFound)

/-- The rules with a symbol of the grammar on their right side. -/
def rulesUsing (g : Grammar) (s : Symbol) : Except Error (List Rule) :=
  if g.hasSymbol s then .ok (g.rules.filter (·.uses s))
  else .error (.symbolRefused .rulesUsing s .symbolNotFound)

def ruleless (g : Grammar) : List Symbol :=
  g.nonterminals.filter fun n => !g.rules.any (·.left = n)

def usedTerminals (g : Grammar) : List Symbol :=
  g.terminals.filter g.isMentioned

def unusedTerminals (g : Grammar) : List Symbol :=
  g.terminals.filter fun t => !g.isMentioned t

/-- The nonterminals on the right sides of the rules for a nonterminal, in order, with repetitions. -/
def successors (g : Grammar) (n : Symbol) : List Symbol :=
  (g.rulesWithLeft n).flatMap fun r => r.right.filter g.isNonterminal

/-- The nonterminals that can be reached from the start symbol, in the order of their discovery. -/
def reachable (g : Grammar) : List Symbol :=
  BreadthFirst.walk g.successors g.nonterminals.length [] [g.start]

/-- The nonterminals that cannot be reached from the start symbol. -/
def unreachable (g : Grammar) : List Symbol :=
  let found := g.reachable
  g.nonterminals.filter fun n => !found.contains n

/-- The right side is a single nonterminal. -/
def isUnit (g : Grammar) (r : Rule) : Bool :=
  match r.right with
  | [s] => g.isNonterminal s
  | _ => false

/-- Sizes of a grammar and counts of the shapes of its rules. -/
structure Stats where
  terminals : Nat
  nonterminals : Nat
  rules : Nat
  epsilonRules : Nat
  unitRules : Nat
  longRules : Nat
deriving DecidableEq, Repr

/-- The sizes of a grammar; a rule is long if its right side has more than two symbols. -/
def stats (g : Grammar) : Stats where
  terminals := g.terminals.length
  nonterminals := g.nonterminals.length
  rules := g.rules.length
  epsilonRules := g.rules.countP (·.isEpsilon)
  unitRules := g.rules.countP g.isUnit
  longRules := g.rules.countP (2 < ·.right.length)

end ContextFree.Grammar

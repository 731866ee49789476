import ContextFree.Error
import ContextFree.Grammar.Basic

/-!
# Normal form

In Chomsky normal form a right side is one terminal or two nonterminals. The start symbol may have an epsilon
rule besides, as long as it occurs on no right side.
-/

namespace ContextFree.Grammar

/-- What is wrong with the shape of a rule. -/
def fault? (g : Grammar) (r : Rule) : Option Fault :=
  match r.right with
  | [] => if r.left = g.start then none else some .misplacedEpsilon
  | [s] => if g.isTerminal s then none else some .loneNonterminal
  | [s, t] => if g.isNonterminal s && g.isNonterminal t then none else some .mixedPair
  | _ => some .tooLong

/-- The first rule without the right shape, or a start symbol that is nullable and in use. -/
def violation? (g : Grammar) : Option Violation :=
  match g.rules.findSome? fun r => (g.fault? r).map (.shape r) with
  | some violation => some violation
  | none =>
    if g.rules.any (·.isEpsilon) && g.rules.any (·.uses g.start) then some (.nullableStart g.start)
    else none

/-- Refuses a grammar that is not in normal form. -/
def checkNormal (g : Grammar) : Except Error Unit :=
  match g.violation? with
  | some violation => .error (.notNormal violation)
  | none => .ok ()

def isNormal (g : Grammar) : Bool :=
  g.violation?.isNone

end ContextFree.Grammar

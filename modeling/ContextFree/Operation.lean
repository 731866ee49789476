import ContextFree.Normal.Conversion

/-!
# Operations as data

Everything that changes a grammar without an observer, as a value that can be kept, listed and run.
-/

namespace ContextFree

/-- A change to a grammar. -/
inductive Operation where
  | insertTerminal (t : Symbol)
  | eraseTerminal (t : Symbol)
  | insertNonterminal (n : Symbol)
  | eraseNonterminal (n : Symbol)
  | setStart (n : Symbol)
  | insertTerminals (ts : List Symbol)
  | eraseTerminals (ts : List Symbol)
  | insertNonterminals (ns : List Symbol)
  | eraseNonterminals (ns : List Symbol)
  | insertRule (r : Rule)
  | eraseRule (r : Rule)
  | insertRules (rs : List Rule)
  | eraseRules (rs : List Rule)
  | insertFresh
  | stage (stage : Stage)
deriving DecidableEq, Repr

namespace Operation

/-- The edit that an operation stands for; the result is the new name, if the operation makes one up. -/
def edit : Operation → Edit (Option Symbol)
  | insertTerminal t => do Grammar.insertTerminal t; return none
  | eraseTerminal t => do Grammar.eraseTerminal t; return none
  | insertNonterminal n => do Grammar.insertNonterminal n; return none
  | eraseNonterminal n => do Grammar.eraseNonterminal n; return none
  | setStart n => do Grammar.setStart n; return none
  | insertTerminals ts => do Grammar.insertTerminals ts; return none
  | eraseTerminals ts => do Grammar.eraseTerminals ts; return none
  | insertNonterminals ns => do Grammar.insertNonterminals ns; return none
  | eraseNonterminals ns => do Grammar.eraseNonterminals ns; return none
  | insertRule r => do Grammar.insertRule r; return none
  | eraseRule r => do Grammar.eraseRule r; return none
  | insertRules rs => do Grammar.insertRules rs; return none
  | eraseRules rs => do Grammar.eraseRules rs; return none
  | insertFresh => return some (← Grammar.insertFresh)
  | stage s => do s.edit; return none

end Operation

end ContextFree

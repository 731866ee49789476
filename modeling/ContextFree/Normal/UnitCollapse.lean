import ContextFree.Grammar.Query

/-!
# Unit rules

A unit rule replaces a nonterminal by a single nonterminal. Instead of following unit rules one after the other,
every nonterminal takes over the other rules of all nonterminals that unit rules lead to.
-/

namespace ContextFree.Grammar

/-- The nonterminals that unit rules put in place of a nonterminal. -/
def unitSuccessors (g : Grammar) (n : Symbol) : List Symbol :=
  ((g.rulesWithLeft n).filter g.isUnit).flatMap (·.right)

/-- The other nonterminals that unit rules lead to from a nonterminal, in the order of their discovery. -/
def unitClosure (g : Grammar) (n : Symbol) : List Symbol :=
  (BreadthFirst.walk g.unitSuccessors g.nonterminals.length [] [n]).tail

/-- The rules that a nonterminal takes over. -/
def inheritedRules (g : Grammar) (n : Symbol) : List Rule :=
  (g.unitClosure n).flatMap fun m =>
    ((g.rulesWithLeft m).filter fun r => !g.isUnit r).map fun r => (⟨n, r.right⟩ : Rule)

def collapseUnits : Edit Unit :=
  Edit.internal do
    let g ← get
    (g.nonterminals.flatMap g.inheritedRules).forM insertMissingRule
    eraseRules (g.rules.filter g.isUnit)

end ContextFree.Grammar

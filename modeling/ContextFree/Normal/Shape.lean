import ContextFree.Normal.Exhaustion

/-!
# Right sides in shape

Isolation moves terminals out of right sides of two or more symbols, splitting cuts right sides down to two
symbols, and a fresh start symbol keeps the start off the right sides. All three name new nonterminals.
-/

namespace ContextFree.Grammar

/-- The first terminal on a right side of two or more symbols. -/
def mixedTerminal? (g : Grammar) : Option Symbol :=
  g.rules.findSome? fun r => if r.right.length < 2 then none else r.right.find? g.isTerminal

/-- Names a terminal by a new nonterminal, which replaces it on all right sides of two or more symbols. -/
def isolateTerminal (t : Symbol) : Edit Unit := do
  let z ← insertFresh
  insertRule ⟨z, [t]⟩
  ((← get).rules.filter fun r => 2 ≤ r.right.length && r.uses t).forM fun r => do
    insertRule (r.substitute t z)
    eraseRule r

/-- Isolates terminals while there is one to isolate, and lists them. -/
def isolateMixed : Edit (List Symbol) := do
  Edit.exhaust mixedTerminal? (fun _ t => isolateTerminal t) (← get).terminals.length []

/-- Isolates every terminal that shares a right side with another symbol. -/
def isolateTerminals : Edit Unit :=
  Edit.internal do
    discard isolateMixed

/-- The first rule with more than two symbols on its right side. -/
def longRule? (g : Grammar) : Option Rule :=
  g.rules.find? (2 < ·.right.length)

/-- Splits a rule after the first symbol of its right side; a new nonterminal stands for the others. -/
def splitRule (r : Rule) : Edit Unit :=
  match r.right with
  | [] => return
  | s :: rest => do
    eraseRule r
    let z ← insertFresh
    insertRule ⟨r.left, [s, z]⟩
    insertRule ⟨z, rest⟩

/-- The number of splits that leave no right side with more than two symbols. -/
def splitCount (g : Grammar) : Nat :=
  g.rules.foldr (fun r count => r.right.length - 2 + count) 0

/-- Splits long rules while there is one to split, and lists them. -/
def splitLong : Edit (List Rule) := do
  Edit.exhaust longRule? (fun _ r => splitRule r) (← get).splitCount []

/-- Splits every rule with more than two symbols on its right side. -/
def splitRules : Edit Unit :=
  Edit.internal do
    discard splitLong

/-- Gives the grammar a new start symbol, whose only rule leads to the old one. -/
def freshenStart : Edit Unit :=
  Edit.internal do
    let z ← insertFresh
    insertRule ⟨z, [(← get).start]⟩
    setStart z

end ContextFree.Grammar

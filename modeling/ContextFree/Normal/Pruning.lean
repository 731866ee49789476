import ContextFree.Grammar.Query
import ContextFree.Normal.Exhaustion

/-!
# Pruning

Pruning removes symbols that contribute nothing: nonterminals without rules, together with the rules that use
them, until all nonterminals but perhaps the start symbol have rules; then the nonterminals that cannot be
reached; then the terminals that are not used.
-/

namespace ContextFree.Grammar

/-- The nonterminals without rules, the start symbol apart, if there are any. -/
def deadEnds? (g : Grammar) : Option (List Symbol) :=
  match g.ruleless.filter (· != g.start) with
  | [] => none
  | found => some found

/-- Removes a nonterminal without rules and the rules that use it. -/
def removeDeadEnd (n : Symbol) : Edit Unit := do
  eraseRules (← Edit.query (rulesUsing · n))
  eraseNonterminal n

/-- Removes nonterminals without rules while there are any, and lists them by rounds. -/
def removeDeadEnds : Edit (List (List Symbol)) := do
  Edit.exhaust deadEnds? (fun _ found => found.forM removeDeadEnd) (← get).nonterminals.length []

/-- Removes the nonterminals that cannot be reached, with their rules. -/
def removeUnreachable : Edit Unit := do
  let lost := (← get).unreachable
  lost.forM fun n => do
    eraseRules (← Edit.query (rulesFor · n))
  eraseNonterminals lost

/-- Removes the symbols that contribute nothing. -/
def prune : Edit Unit :=
  Edit.internal do
    discard removeDeadEnds
    removeUnreachable
    eraseTerminals (← get).unusedTerminals

end ContextFree.Grammar

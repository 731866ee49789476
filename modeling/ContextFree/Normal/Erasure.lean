import ContextFree.Normal.Exhaustion

/-!
# Erasure

Erasure removes the epsilon rules of all symbols but the start symbol. To make up for `A -> epsilon`, every rule
gains its variants without some of the occurrences of `A`. A symbol whose epsilon rule was removed does not
get it back, since it has been dropped from every rule already; so no symbol comes up twice.
-/

namespace ContextFree

/-- The ways to leave out occurrences of a symbol in a sequence. The first leaves out none; of two ways, the
one that keeps the first occurrence on which they differ comes earlier. They need not give different
sequences. -/
def leaveOut (a : Symbol) : List Symbol → List (List Symbol)
  | [] => [[]]
  | s :: rest =>
    let ways := leaveOut a rest
    ways.map (s :: ·) ++ if s = a then ways else []

/-- The sequences of a list whose keys are not among those seen, each once. -/
def distinctSequences (seen : Std.ExtTreeSet String) : List (List Symbol) → List (List Symbol)
  | [] => []
  | c :: rest =>
    let key := sequenceKey Text.isPrintable c
    if seen.contains key then distinctSequences seen rest
    else c :: distinctSequences (seen.insert key) rest

/-- The different sequences left when at least one occurrence of a symbol is dropped. -/
def dropVariants (a : Symbol) (sequence : List Symbol) : List (List Symbol) :=
  distinctSequences ∅ (leaveOut a sequence).tail

namespace Grammar

/-- The first symbol other than the start symbol with an epsilon rule. -/
def erasable? (g : Grammar) : Option Symbol :=
  (g.rules.find? fun r => r.isEpsilon && r.left != g.start).map (·.left)

/-- The rules to add before the epsilon rule of a symbol goes, given the symbols that lost theirs. -/
def erasureRules (g : Grammar) (past : List Symbol) (a : Symbol) : List Rule :=
  (g.rules.flatMap fun r => (dropVariants a r.right).map fun right => (⟨r.left, right⟩ : Rule)).filter
    fun r => !r.isLoop && !(r.isEpsilon && (past ++ [a]).contains r.left)

/-- Removes the epsilon rule of a symbol and makes up for it. -/
def eraseSymbol (past : List Symbol) (a : Symbol) : Edit Unit := do
  ((← get).erasureRules past a).forM insertMissingRule
  eraseRule ⟨a, []⟩

/-- Removes epsilon rules while there is one to remove, and lists their symbols. -/
def eraseErasable : Edit (List Symbol) := do
  Edit.exhaust erasable? eraseSymbol (← get).nonterminals.length []

/-- Removes the epsilon rules of all symbols but the start symbol. -/
def eraseEpsilons : Edit Unit :=
  Edit.internal do
    discard eraseErasable

end Grammar

end ContextFree

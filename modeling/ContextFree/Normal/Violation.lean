import ContextFree.Rule

/-!
# Violations of normal form
-/

namespace ContextFree

/-- What is wrong with the shape of one rule. -/
inductive Fault where
  | misplacedEpsilon
  | loneNonterminal
  | mixedPair
  | tooLong
deriving DecidableEq, Repr

def Fault.message : Fault → String
  | misplacedEpsilon => "epsilon rule on non-start symbol"
  | loneNonterminal => "single symbol is not a terminal"
  | mixedPair => "pair contains a terminal"
  | tooLong => "right side longer than two"

/-- Why a grammar is not in normal form. -/
inductive Violation where
  | shape (rule : Rule) (fault : Fault)
  /-- The start symbol has an epsilon rule and occurs on a right side. -/
  | nullableStart (start : Symbol)
deriving DecidableEq, Repr

def Violation.message : Violation → String
  | shape rule fault => rule.text ++ ": " ++ fault.message
  | nullableStart start => "start symbol " ++ Text.quote start ++ " is nullable and used on a right side"

end ContextFree

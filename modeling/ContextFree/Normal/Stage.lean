/-!
# Stages of normalization

The stages run in the order of `Stage.all`. Erasure counts on short right sides and a start symbol of its own,
and the collapse of unit rules on the absence of epsilon rules other than that symbol's.
-/

namespace ContextFree

/-- A stage on the way to normal form. -/
inductive Stage where
  /-- Terminals stand alone on a right side. -/
  | isolation
  /-- Right sides have at most two symbols. -/
  | splitting
  /-- The start symbol occurs on no right side. -/
  | freshStart
  /-- Only the start symbol has an epsilon rule. -/
  | erasure
  /-- No right side is a single nonterminal. -/
  | unitCollapse
  /-- No symbol is dead. -/
  | pruning
deriving DecidableEq, Repr

namespace Stage

def all : List Stage :=
  [isolation, splitting, freshStart, erasure, unitCollapse, pruning]

def name : Stage → String
  | isolation => "terminals"
  | splitting => "multiples"
  | freshStart => "start"
  | erasure => "epsilons"
  | unitCollapse => "units"
  | pruning => "uselesses"

def ofName? (name : String) : Option Stage :=
  all.find? (·.name = name)

end Stage

end ContextFree

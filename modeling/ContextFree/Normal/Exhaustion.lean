import ContextFree.Grammar.Edit

/-!
# Edits to exhaustion

The stages of normalization look for something to do, do it and look again. Each has a bound on the number of
rounds that a consistent grammar never needs to exceed.
-/

namespace ContextFree.Edit

variable {α : Type}

/-- Acts on what `find` finds until it finds nothing, for so many rounds at most. The result lists what was
acted on, after what is `past`; the action is told what came before. -/
def exhaust (find : Grammar → Option α) (act : List α → α → Edit Unit) : Nat → List α → Edit (List α)
  | 0, past => return past
  | rounds + 1, past => do
    match find (← get) with
    | none => return past
    | some a =>
      act past a
      exhaust find act rounds (past ++ [a])

end ContextFree.Edit

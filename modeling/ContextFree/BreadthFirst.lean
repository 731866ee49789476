/-!
# Breadth-first walks

A walk keeps the nodes it has dealt with and a queue of those it has only met; together they are what it has
discovered, in order of discovery.
-/

namespace ContextFree.BreadthFirst

variable {α : Type} [BEq α]

/-- The members of a list that are not known yet, each once, in order. -/
def unseen (known : List α) : List α → List α
  | [] => []
  | x :: rest =>
    if known.contains x then unseen known rest else x :: unseen (known ++ [x]) rest

/-- The nodes discovered after so many more steps. A step takes the first node off the queue and puts its new
neighbours at the end. -/
def walk (next : α → List α) : Nat → List α → List α → List α
  | 0, done, queue => done ++ queue
  | _ + 1, done, [] => done
  | steps + 1, done, x :: queue =>
    walk next steps (done ++ [x]) (queue ++ unseen (done ++ x :: queue) (next x))

end ContextFree.BreadthFirst

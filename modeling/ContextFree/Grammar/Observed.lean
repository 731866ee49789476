import ContextFree.Grammar.Edit

/-!
# Observed edits

Conversions and listings call back into code that belongs to the caller: it may edit the grammar, keep records
of its own and stop the run.
-/

namespace ContextFree

/-- A computation on a grammar and on the records of an observer. -/
abbrev Observed (ω : Type) := EStateM Error (Grammar × ω)

namespace Observed

variable {ω α : Type}

/-- An edit, which leaves the records alone. -/
def ofEdit (edit : Edit α) : Observed ω α := fun (g, records) =>
  match edit g with
  | .ok a g' => .ok a (g', records)
  | .error e g' => .error e (g', records)

def grammar : Observed ω Grammar :=
  return (← get).1

def record (change : ω → ω) : Observed ω Unit :=
  modify fun (g, records) => (g, change records)

end Observed

end ContextFree

import ContextFree.Normal.Conversion
import ContextFree.Normal.Form

/-!
# Normal form on request

A request for a stage, a conversion or a check may come without a grammar. It is refused then before anything else
is done: no observer is called, and there is nothing in normal form.
-/

namespace ContextFree

/-- The grammar that a request is about, which may be missing. -/
abbrev Target := Option Grammar

namespace Target

variable {ω α : Type}

/-- Runs on the grammar, which must be there. -/
def run (observed : Observed ω α) : EStateM Error (Target × ω) α
  | (none, records) => .error .noGrammar (none, records)
  | (some g, records) =>
    match observed (g, records) with
    | .ok a (g', records') => .ok a (some g', records')
    | .error e (g', records') => .error e (some g', records')

def runStage (stage : Stage) : EStateM Error (Target × ω) Unit :=
  run (Observed.ofEdit stage.edit)

/-- Converts the grammar to normal form in place. -/
def normalize (observer : Observer ω) : EStateM Error (Target × ω) Unit :=
  run (Grammar.normalize observer)

/-- The normal form of the grammar, which itself stays as it is. -/
def normalized (target : Target) (observer : Observer ω) (records : ω) : Except Error Grammar × ω :=
  match target with
  | none => (.error .noGrammar, records)
  | some g => g.normalized observer records

/-- Refuses a grammar that is missing or not in normal form. -/
def checkNormal (target : Target) : Except Error Unit :=
  match target with
  | none => .error .noGrammar
  | some g => g.checkNormal

def isNormal (target : Target) : Bool :=
  target.checkNormal.isOk

end Target

end ContextFree

import ContextFree.Grammar.Observed
import ContextFree.Normal.Erasure
import ContextFree.Normal.Pruning
import ContextFree.Normal.Shape
import ContextFree.Normal.UnitCollapse

/-!
# Conversion to normal form

The stages run one after the other. An observer is called after each; it sees the grammar as the stage left it,
may edit it, and may stop the conversion.
-/

namespace ContextFree

def Stage.edit : Stage → Edit Unit
  | .isolation => Grammar.isolateTerminals
  | .splitting => Grammar.splitRules
  | .freshStart => Grammar.freshenStart
  | .erasure => Grammar.eraseEpsilons
  | .unitCollapse => Grammar.collapseUnits
  | .pruning => Grammar.prune

/-- What an observer does after a stage. -/
abbrev Observer (ω : Type) := Stage → Observed ω Unit

def Observer.idle {ω : Type} : Observer ω :=
  fun _ => return

/-- The observer in force after a list of choices: the last one given, an idle one if none is. -/
def Observer.choose {ω : Type} (choices : List (Option (Observer ω))) : Observer ω :=
  choices.foldl (fun observer choice => choice.getD observer) .idle

namespace Grammar

variable {ω : Type}

/-- Converts the grammar to normal form in place. -/
def normalize (observer : Observer ω) : Observed ω Unit :=
  Stage.all.forM fun stage => do
    Observed.ofEdit stage.edit
    EStateM.adaptExcept (.stopped stage) (observer stage)

/-- The normal form of a grammar, which itself stays as it is. -/
def normalized (g : Grammar) (observer : Observer ω) (records : ω) : Except Error Grammar × ω :=
  match g.refiled with
  | .error e => (.error e, records)
  | .ok copy =>
    match normalize observer (copy, records) with
    | .ok _ (g', records') => (.ok g', records')
    | .error e (_, records') => (.error e, records')

end Grammar

end ContextFree

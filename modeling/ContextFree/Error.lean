import ContextFree.Normal.Stage
import ContextFree.Normal.Violation

/-!
# Errors

An error says what was asked for and why it was refused. `Error.message` gives its wording, `Error.kind` what
it is about, whatever it is wrapped in.
-/

namespace ContextFree

/-- Why a request about a symbol or a rule is refused. -/
inductive Cause where
  | emptySymbol
  | terminalExists
  | nonterminalExists
  | terminalNotFound
  | nonterminalNotFound
  | symbolNotFound
  | symbolInUse
  | ruleExists
  | ruleNotFound
  | startSymbol
deriving DecidableEq, Repr

def Cause.message : Cause → String
  | emptySymbol => "grammar: symbol is empty"
  | terminalExists => "grammar: symbol already in alphabet"
  | nonterminalExists => "grammar: symbol already a nonterminal"
  | terminalNotFound => "grammar: terminal not found"
  | nonterminalNotFound => "grammar: nonterminal not found"
  | symbolNotFound => "grammar: symbol not in alphabet or nonterminals"
  | symbolInUse => "grammar: symbol is referenced by a rule"
  | ruleExists => "grammar: rule already exists"
  | ruleNotFound => "grammar: rule not found"
  | startSymbol => "grammar: start symbol cannot be removed"

inductive SymbolRequest where
  | insertTerminal
  | eraseTerminal
  | insertNonterminal
  | eraseNonterminal
  | setStart
  | rulesFor
  | rulesUsing
deriving DecidableEq, Repr

def SymbolRequest.name : SymbolRequest → String
  | insertTerminal => "AddTerminal"
  | eraseTerminal => "DeleteTerminal"
  | insertNonterminal => "AddNonterminal"
  | eraseNonterminal => "DeleteNonterminal"
  | setStart => "SetStartSymbol"
  | rulesFor => "RulesFor"
  | rulesUsing => "RulesReferencing"

inductive RuleRequest where
  | insert
  | erase
deriving DecidableEq, Repr

def RuleRequest.name : RuleRequest → String
  | insert => "AddRule"
  | erase => "DeleteRule"

/-- Everything that can go wrong. -/
inductive Error where
  | symbolRefused (request : SymbolRequest) (symbol : Symbol) (cause : Cause)
  | ruleRefused (request : RuleRequest) (rule : Rule) (cause : Cause)
  /-- The left side of a new rule is not a nonterminal. -/
  | unknownLeft (rule : Rule)
  /-- A new rule has an unknown symbol on its right side. -/
  | unknownRight (rule : Rule) (symbol : Symbol)
  /-- The parts given do not make a grammar. -/
  | construction (error : Error)
  /-- A stage asked for what the grammar refuses. -/
  | invariant (error : Error)
  /-- The observer of a conversion stopped it after a stage. -/
  | stopped (stage : Stage) (error : Error)
  | noGrammar
  | notNormal (violation : Violation)
  /-- A rule to be listed has a symbol that is no longer known. -/
  | unlisted (rule : Rule) (symbol : Symbol)
  /-- An error of an observer's own. -/
  | observer (text : String)
  /-- An error of a writer's own. -/
  | writer (text : String)
  /-- Any other error of the caller's. -/
  | other (text : String)
deriving DecidableEq, Repr

namespace Error

def message : Error → String
  | symbolRefused request s cause =>
    "grammar: " ++ request.name ++ "(" ++ Text.quote s ++ "): " ++ cause.message
  | ruleRefused request r cause => "grammar: " ++ request.name ++ "(" ++ r.text ++ "): " ++ cause.message
  | unknownLeft r =>
    "grammar: " ++ RuleRequest.insert.name ++ "(" ++ r.text ++ "): left " ++ Text.quote r.left ++ ": " ++
      Cause.nonterminalNotFound.message
  | unknownRight r s =>
    "grammar: " ++ RuleRequest.insert.name ++ "(" ++ r.text ++ "): right " ++ Text.quote s ++ ": " ++
      Cause.symbolNotFound.message
  | construction e => "grammar: New: " ++ e.message
  | invariant e => "cnf: internal invariant violated: " ++ e.message
  | stopped stage e => "cnf: OnStage(" ++ stage.name ++ "): " ++ e.message
  | noGrammar => "cnf: grammar is nil"
  | notNormal violation => "cnf: grammar is not in Chomsky Normal Form: " ++ violation.message
  | unlisted r s =>
    "render: rule " ++ r.text ++ ": " ++ Text.quote s ++
      ": render: symbol is neither terminal nor nonterminal"
  | observer text => text
  | writer text => text
  | other text => text

/-- The error as a broken invariant. An invariant that is broken already stays as it is. -/
def asInvariant : Error → Error
  | invariant e => invariant e
  | e => invariant e

/-- What an error is about. -/
inductive Kind where
  | observer
  | invariant
  | noGrammar
  | notNormal
  | unlisted
  | refused (cause : Cause)
  | writer
  | other
deriving DecidableEq, Repr

/-- The kind of an error. A wrapper passes on the kind of what it wraps, except that a broken invariant hides
every kind but an observer's own. -/
def kind : Error → Kind
  | symbolRefused _ _ cause => .refused cause
  | ruleRefused _ _ cause => .refused cause
  | unknownLeft _ => .refused .nonterminalNotFound
  | unknownRight _ _ => .refused .symbolNotFound
  | construction e => e.kind
  | invariant e => if e.kind = .observer then .observer else .invariant
  | stopped _ e => e.kind
  | noGrammar => .noGrammar
  | notNormal _ => .notNormal
  | unlisted _ _ => .unlisted
  | observer _ => .observer
  | writer _ => .writer
  | other _ => .other

end Error

end ContextFree

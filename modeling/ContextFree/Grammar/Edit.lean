import ContextFree.Error
import ContextFree.Grammar.Basic

/-!
# Edits

An edit changes a grammar and may be refused. Every elementary edit is guarded: it looks for a reason to
refuse first and leaves the grammar alone if there is one. Edits in sequence stop at the first refusal, and
what was done before it stays done.
-/

namespace ContextFree

/-- A computation that edits a grammar. After an error the grammar is what it was when the error arose. -/
abbrev Edit := EStateM Error Grammar

namespace Edit

/-- The elementary edit: an update, unless there is a reason to refuse it. -/
def guarded (refusal : Grammar → Option Error) (update : Grammar → Grammar) : Edit Unit := fun g =>
  match refusal g with
  | some e => .error e g
  | none => .ok () (update g)

/-- A question to the grammar, which may be refused. -/
def query {α : Type} (question : Grammar → Except Error α) : Edit α := fun g =>
  match question g with
  | .error e => .error e g
  | .ok a => .ok a g

/-- A computation that should never be refused; a refusal is a broken invariant. -/
def internal {α : Type} (edit : Edit α) : Edit α :=
  EStateM.adaptExcept Error.asInvariant edit

end Edit

namespace Grammar

/-- Why a symbol cannot be taken up as a new one. -/
def newSymbolCause? (g : Grammar) (s : Symbol) : Option Cause :=
  if s = "" then some .emptySymbol
  else if g.isTerminal s then some .terminalExists
  else if g.isNonterminal s then some .nonterminalExists
  else none

/-- Adds a terminal after the others. -/
def insertTerminal (t : Symbol) : Edit Unit :=
  Edit.guarded (fun g => (g.newSymbolCause? t).map (.symbolRefused .insertTerminal t)) fun g =>
    { g with terminals := g.terminals ++ [t], terminalIndex := g.terminalIndex.insert t }

/-- Adds a nonterminal after the others. -/
def insertNonterminal (n : Symbol) : Edit Unit :=
  Edit.guarded (fun g => (g.newSymbolCause? n).map (.symbolRefused .insertNonterminal n)) fun g =>
    { g with nonterminals := g.nonterminals ++ [n], nonterminalIndex := g.nonterminalIndex.insert n }

/-- Why a symbol cannot be removed from the terminals. -/
def eraseTerminalCause? (g : Grammar) (t : Symbol) : Option Cause :=
  if !g.isTerminal t then some .terminalNotFound
  else if g.isMentioned t then some .symbolInUse
  else none

/-- Removes a terminal that no rule mentions. -/
def eraseTerminal (t : Symbol) : Edit Unit :=
  Edit.guarded (fun g => (g.eraseTerminalCause? t).map (.symbolRefused .eraseTerminal t)) fun g =>
    { g with terminals := g.terminals.erase t, terminalIndex := g.terminalIndex.erase t }

/-- Why a symbol cannot be removed from the nonterminals. -/
def eraseNonterminalCause? (g : Grammar) (n : Symbol) : Option Cause :=
  if !g.isNonterminal n then some .nonterminalNotFound
  else if g.isMentioned n then some .symbolInUse
  else if n = g.start then some .startSymbol
  else none

/-- Removes a nonterminal that no rule mentions and that is not the start symbol. -/
def eraseNonterminal (n : Symbol) : Edit Unit :=
  Edit.guarded (fun g => (g.eraseNonterminalCause? n).map (.symbolRefused .eraseNonterminal n)) fun g =>
    { g with nonterminals := g.nonterminals.erase n, nonterminalIndex := g.nonterminalIndex.erase n }

/-- Makes a nonterminal the start symbol. -/
def setStart (n : Symbol) : Edit Unit :=
  Edit.guarded
    (fun g => if g.isNonterminal n then none else some (.symbolRefused .setStart n .nonterminalNotFound))
    fun g => { g with start := n }

/-- Why a rule cannot be added. -/
def insertRuleRefusal? (g : Grammar) (r : Rule) : Option Error :=
  if !g.isNonterminal r.left then some (.unknownLeft r)
  else match r.right.find? fun s => !g.hasSymbol s with
    | some s => some (.unknownRight r s)
    | none => if g.hasRule r then some (.ruleRefused .insert r .ruleExists) else none

/-- One more mention of a symbol. -/
def addMention (mentions : Std.ExtTreeMap Symbol Nat) (s : Symbol) : Std.ExtTreeMap Symbol Nat :=
  mentions.alter s fun count => some (count.getD 0 + 1)

/-- One mention of a symbol less; the last one takes the entry with it. -/
def removeMention (mentions : Std.ExtTreeMap Symbol Nat) (s : Symbol) : Std.ExtTreeMap Symbol Nat :=
  mentions.alter s fun
    | some (count + 2) => some (count + 1)
    | _ => none

/-- The grammar with one more rule after the others. -/
def pushRule (g : Grammar) (r : Rule) : Grammar :=
  { g with
    rules := g.rules ++ [r]
    ruleIndex := g.ruleIndex.insert r.key
    mentions := r.symbols.foldl addMention g.mentions }

/-- The grammar without a rule it has. -/
def dropRule (g : Grammar) (r : Rule) : Grammar :=
  { g with
    rules := g.rules.erase r
    ruleIndex := g.ruleIndex.erase r.key
    mentions := r.symbols.foldl removeMention g.mentions }

def insertRule (r : Rule) : Edit Unit :=
  Edit.guarded (insertRuleRefusal? · r) (pushRule · r)

def eraseRule (r : Rule) : Edit Unit :=
  Edit.guarded (fun g => if g.hasRule r then none else some (.ruleRefused .erase r .ruleNotFound))
    (dropRule · r)

/-- Adds a rule unless it is there. -/
def insertMissingRule (r : Rule) : Edit Unit := do
  unless (← get).hasRule r do
    insertRule r

/-- Adds a nonterminal with a fresh name and returns the name. -/
def insertFresh : Edit Symbol := do
  let n := (← get).freshName
  insertNonterminal n
  return n

def insertTerminals (ts : List Symbol) : Edit Unit :=
  ts.forM insertTerminal

def eraseTerminals (ts : List Symbol) : Edit Unit :=
  ts.forM eraseTerminal

def insertNonterminals (ns : List Symbol) : Edit Unit :=
  ns.forM insertNonterminal

def eraseNonterminals (ns : List Symbol) : Edit Unit :=
  ns.forM eraseNonterminal

def insertRules (rs : List Rule) : Edit Unit :=
  rs.forM insertRule

def eraseRules (rs : List Rule) : Edit Unit :=
  rs.forM eraseRule

/-- Builds a grammar up: the start symbol, which is also a nonterminal, then terminals, nonterminals and
rules. -/
def build (start : Symbol) (terminals nonterminals : List Symbol) (rules : List Rule) : Edit Unit := do
  insertNonterminal start
  setStart start
  insertTerminals terminals
  insertNonterminals nonterminals
  insertRules rules

/-- The grammar of a start symbol, terminals, further nonterminals and rules. -/
def ofParts (start : Symbol) (terminals nonterminals : List Symbol) (rules : List Rule)
    (namer : Namer) : Except Error Grammar :=
  match build start terminals nonterminals rules (empty namer) with
  | .ok _ g => .ok g
  | .error e _ => .error (.construction e)

/-- The grammar with its rules filed anew: the symbols stay, and the rules go in one by one. -/
def refiled (g : Grammar) : Except Error Grammar :=
  match insertRules g.rules { g with rules := [], ruleIndex := ∅, mentions := ∅ } with
  | .ok _ g' => .ok g'
  | .error e _ => .error e

end Grammar

end ContextFree

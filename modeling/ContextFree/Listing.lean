import ContextFree.Grammar.Observed

/-!
# Listings

A listing has one line per rule, terminals in single quotes. It goes through a writer, which may fail and may
edit the grammar; so the rules are those at the beginning, but what their symbols are is looked up for each
line.
-/

namespace ContextFree

abbrev Writer (ω : Type) := String → Observed ω Unit

namespace Grammar

/-- A symbol of a right side as it is listed, if the grammar knows it. -/
def listedSymbol? (g : Grammar) (s : Symbol) : Option String :=
  if g.isTerminal s then some (" '" ++ s ++ "'")
  else if g.isNonterminal s then some (" " ++ s)
  else none

/-- A right side as it is listed, or its first symbol that the grammar does not know. -/
def listedSequence (g : Grammar) : List Symbol → Except Symbol String
  | [] => .ok ""
  | s :: rest =>
    match g.listedSymbol? s with
    | none => .error s
    | some text => (g.listedSequence rest).map (text ++ ·)

def ruleLine (g : Grammar) (r : Rule) : Except Error String :=
  match r.right with
  | [] => .ok (r.left ++ " -> epsilon\n")
  | right =>
    match g.listedSequence right with
    | .error s => .error (.unlisted r s)
    | .ok text => .ok (r.left ++ " ->" ++ text ++ "\n")

variable {ω : Type}

/-- Writes the rules, a line at a time. -/
def writeRules (write : Writer ω) : Observed ω Unit := do
  (← Observed.grammar).rules.forM fun r => do
    write (← Observed.ofEdit (Edit.query (ruleLine · r)))

/-- Writes the start symbol and the rules, a line at a time. -/
def writeGrammar (write : Writer ω) : Observed ω Unit := do
  write ("start: " ++ (← Observed.grammar).start ++ "\n")
  writeRules write

/-- The lines of the rules as one text. -/
def listing (g : Grammar) : Except Error String :=
  match writeRules (fun line => Observed.record (· ++ line)) (g, "") with
  | .ok _ (_, text) => .ok text
  | .error e _ => .error e

end Grammar

end ContextFree

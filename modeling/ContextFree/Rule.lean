import ContextFree.Text.Quoted

/-!
# Symbols and rules

A rule replaces its left symbol by the sequence on its right; an empty right side erases the symbol. Whether a
symbol is a terminal is a matter of the grammar and not of the symbol.
-/

namespace ContextFree

/-- A symbol is identified by its text, compared exactly. -/
abbrev Symbol := String

/-- A text for a sequence of symbols. Quoted symbols end where they end, so none separates them. -/
def sequenceKey (printable : Char → Bool) (sequence : List Symbol) : String :=
  String.ofList (sequence.flatMap (Text.quoteChars printable))

/-- A rule of a grammar, also called a production. -/
structure Rule where
  left : Symbol
  right : List Symbol
deriving DecidableEq, Repr

namespace Rule

/-- The rules have the same left symbol and right sides of one length with the same symbol at every position. -/
def agrees (r o : Rule) : Bool :=
  r.left == o.left && r.right.length == o.right.length && (r.right.zip o.right).all fun (s, t) => s == t

/-- The rule erases its left symbol. -/
def isEpsilon (r : Rule) : Bool :=
  r.right.isEmpty

/-- The symbol occurs on the right side. -/
def uses (r : Rule) (s : Symbol) : Bool :=
  r.right.contains s

/-- The rule replaces a symbol by itself alone. -/
def isLoop (r : Rule) : Bool :=
  r.right == [r.left]

/-- The symbols of both sides, each once. -/
def symbols (r : Rule) : List Symbol :=
  (r.left :: r.right).eraseDups

/-- The rule with another symbol in place of every occurrence of one on its right side. -/
def substitute (r : Rule) (old new : Symbol) : Rule :=
  ⟨r.left, r.right.map fun s => if s = old then new else s⟩

/-- The rule as text, for messages; the symbols stand bare. -/
def text (r : Rule) : String :=
  match r.right with
  | [] => r.left ++ " -> epsilon"
  | right => r.left ++ " ->" ++ String.join (right.map (" " ++ ·))

/-- A text that determines the rule, given which characters may stand for themselves in it. -/
def keyWith (printable : Char → Bool) (r : Rule) : String :=
  String.ofList (Text.quoteChars printable r.left ++
    r.right.flatMap fun s => ' ' :: Text.quoteChars printable s)

/-- The text under which a grammar files the rule. -/
def key (r : Rule) : String :=
  r.keyWith Text.isPrintable

end Rule

end ContextFree

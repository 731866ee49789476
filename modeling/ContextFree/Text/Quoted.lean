import ContextFree.Text.Printable

/-!
# Quoted text

Text between double quotes, in which the quote, the backslash and every character that is not printable are
escaped. An escape is a backslash and one mark, or a backslash, a letter for the width, and that many
hexadecimal digits; so a quoted text ends at its first bare quote, whatever follows, and no separator is needed
between two of them.
-/

namespace ContextFree.Text

/-- The last `width` hexadecimal digits of a number, the most significant first. -/
def hexDigits : Nat → Nat → List Char
  | 0, _ => []
  | width + 1, n => hexDigits width (n / 16) ++ [Nat.digitChar (n % 16)]

/-- The mark that stands for a character after a backslash, for the characters that have one. -/
def escapeMark (c : Char) : Option Char :=
  match c with
  | '"' => some '"'
  | '\\' => some '\\'
  | '\x07' => some 'a'
  | '\x08' => some 'b'
  | '\x0c' => some 'f'
  | '\n' => some 'n'
  | '\x0d' => some 'r'
  | '\t' => some 't'
  | '\x0b' => some 'v'
  | _ => none

/-- A character by its code point: two digits for the ASCII controls, four up to U+FFFF, eight beyond. -/
def escapeCode (c : Char) : List Char :=
  if c.toNat < 0x20 ∨ c.toNat = 0x7F then '\\' :: 'x' :: hexDigits 2 c.toNat
  else if c.toNat < 0x10000 then '\\' :: 'u' :: hexDigits 4 c.toNat
  else '\\' :: 'U' :: hexDigits 8 c.toNat

/-- A character inside quoted text, given which characters may stand for themselves. -/
def escape (printable : Char → Bool) (c : Char) : List Char :=
  match escapeMark c with
  | some mark => ['\\', mark]
  | none => if printable c then [c] else escapeCode c

/-- The characters of a quoted text, both quotes included. -/
def quoteChars (printable : Char → Bool) (s : String) : List Char :=
  '"' :: (s.toList.flatMap (escape printable) ++ ['"'])

/-- Quoted text, given which characters may stand for themselves. -/
def quoteWith (printable : Char → Bool) (s : String) : String :=
  String.ofList (quoteChars printable s)

/-- Quoted text. -/
def quote (s : String) : String :=
  quoteWith isPrintable s

end ContextFree.Text

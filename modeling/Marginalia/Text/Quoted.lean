import Marginalia.Text.Units

/-!
# Quoted texts

A text is shown between quotes when it may hold characters that cannot be seen.
Control characters are written by their code in two hexadecimal digits, unless
there is a shorter form. Single quotes stand around a text, except that one
with single quotes in it gets other quotes, if it has none of those.
-/

namespace Marginalia
namespace Text
namespace Quoted

def hexDigit (n : Nat) : Char :=
  if n < 10 then Char.ofNat (48 + n) else Char.ofNat (55 + n)

/-- A character that cannot be seen. -/
def isControl (c : Char) : Bool := c.toNat < 0x20 || (0x7f ≤ c.toNat && c.toNat < 0xa0)

/-- A character between quotes of a kind. Other quotes than single ones stand around no text that
holds them. -/
def escape (mark c : Char) : List Char :=
  match c with
  | '\x08' => ['\\', 'b']
  | '\t' => ['\\', 't']
  | '\n' => ['\\', 'n']
  | '\x0c' => ['\\', 'f']
  | '\r' => ['\\', 'r']
  | '\\' => ['\\', '\\']
  | c =>
    if c = '\x27' && mark = '\x27' then ['\\', c]
    else if isControl c then ['\\', 'x', hexDigit (c.toNat / 16), hexDigit (c.toNat % 16)]
    else [c]

/-- Whether a dollar sign stands before a brace, which has a meaning between backticks. -/
def hasHole (cs : List Char) : Bool := (cs.zip cs.tail).contains ('$', '{')

def markOf (cs : List Char) : Char :=
  if !cs.contains '\x27' then '\x27'
  else if !cs.contains '"' then '"'
  else if !cs.contains '\x60' && !hasHole cs then '\x60'
  else '\x27'

def write (cs : List Char) : List Char :=
  let mark := markOf cs
  mark :: (cs.flatMap (escape mark) ++ [mark])

end Quoted

def quotedWidth : Nat := 128

/-- A text in quotes. Of a long one only the beginning is shown. -/
def quoted (s : String) : String :=
  let cs := Quoted.write s.toList
  if width cs ≤ quotedWidth then String.ofList cs
  else String.ofList (takeWidth quotedWidth cs) ++ "..."

end Text
end Marginalia

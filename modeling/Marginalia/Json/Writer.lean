import Marginalia.Json.Value
import Marginalia.Number.Shortest

/-!
# Writing JSON text

Values are written on one line without blanks, or indented by two blanks a
level with one element or member a line. Strings are quoted with the short
escapes where there is one, and four hexadecimal digits for other control
characters; every other character stands for itself. An infinity has no
numeral and is written as `null`.
-/

namespace Marginalia
namespace Json

def hexDigit (n : Nat) : Char :=
  if n < 10 then Char.ofNat (48 + n) else Char.ofNat (87 + n)

def escapeChar (c : Char) : List Char :=
  match c with
  | '"' => ['\\', '"']
  | '\\' => ['\\', '\\']
  | '\x08' => ['\\', 'b']
  | '\x0c' => ['\\', 'f']
  | '\n' => ['\\', 'n']
  | '\r' => ['\\', 'r']
  | '\t' => ['\\', 't']
  | c =>
    if c.toNat < 0x20 then ['\\', 'u', '0', '0', hexDigit (c.toNat / 16), hexDigit (c.toNat % 16)]
    else [c]

def quote (s : String) : List Char :=
  '"' :: (s.toList.flatMap escapeChar ++ ['"'])

def numberText : Number → List Char
  | .infinite _ => "null".toList
  | x => x.text

/-- How values are laid out: on one line, or one element a line at a depth. -/
inductive Style where
  | compact
  | indented (depth : Nat)
deriving DecidableEq, Repr

namespace Style

/-- What separates two elements, or an element and a bracket around it. -/
def lineBreak : Style → List Char
  | .compact => []
  | .indented depth => '\n' :: List.replicate (2 * depth) ' '

def inner : Style → Style
  | .compact => .compact
  | .indented depth => .indented (depth + 1)

def colon : Style → List Char
  | .compact => [':']
  | .indented _ => [':', ' ']

end Style

mutual

def write (style : Style) : Json → List Char
  | .null => "null".toList
  | .bool true => "true".toList
  | .bool false => "false".toList
  | .num x => numberText x
  | .str s => quote s
  | .arr [] => ['[', ']']
  | .arr (v :: vs) =>
    '[' :: (style.inner.lineBreak ++ write style.inner v ++ writeElements style.inner vs ++
      style.lineBreak ++ [']'])
  | .obj [] => ['{', '}']
  | .obj ((name, v) :: ms) =>
    '{' :: (style.inner.lineBreak ++ quote name ++ style.inner.colon ++ write style.inner v ++
      writeMembers style.inner ms ++ style.lineBreak ++ ['}'])

/-- The elements after the first, each with the comma before it. -/
def writeElements (style : Style) : List Json → List Char
  | [] => []
  | v :: vs => ',' :: (style.lineBreak ++ write style v ++ writeElements style vs)

def writeMembers (style : Style) : List (String × Json) → List Char
  | [] => []
  | (name, v) :: ms =>
    ',' :: (style.lineBreak ++ quote name ++ style.colon ++ write style v ++ writeMembers style ms)

end

/-- The text of a value on one line, or indented. -/
def render (pretty : Bool) (v : Json) : String :=
  String.ofList (write (if pretty then .indented 0 else .compact) v)

end Json
end Marginalia

/-!
# Elementary text operations

Beginnings, endings, cuts and joins of strings, each given by the list of its
characters, and the case maps that level names and file extensions need.
-/

namespace Marginalia
namespace Text

def startsWith (start s : String) : Bool :=
  start.toList.isPrefixOf s.toList

def endsWith (ending s : String) : Bool :=
  ending.toList.isSuffixOf s.toList

def dropFirst (n : Nat) (s : String) : String :=
  String.ofList (s.toList.drop n)

def dropLast (n : Nat) (s : String) : String :=
  String.ofList (s.toList.take (s.toList.length - n))

def split (sep : Char) (s : String) : List String :=
  (s.toList.splitOn sep).map String.ofList

/-- Strings one after another with a separator between them. -/
def join (sep : String) : List String → String
  | [] => ""
  | [s] => s
  | s :: rest => s ++ sep ++ join sep rest

/-- The physical lines of a text: its pieces between newlines. -/
def lines (cs : List Char) : List (List Char) :=
  cs.splitOn '\n'

def firstLine (s : String) : String := String.ofList (s.toList.takeWhile (· ≠ '\n'))

def dropCarriageReturn (line : List Char) : List Char :=
  if line.getLast? = some '\r' then line.dropLast else line

/-- Lower case of one character, as far as it is an ASCII letter: besides the
ASCII letters, the Kelvin sign has one. -/
def lowerChar (c : Char) : Char :=
  if c = '\u212A' then 'k' else c.toLower

def lower (s : String) : String :=
  String.ofList (s.toList.map lowerChar)

/-- Upper case of one character, as far as it is an ASCII letter: besides the
ASCII letters, the dotless i and the long s have one. -/
def upperChar (c : Char) : Char :=
  if c = 'ı' then 'I' else if c = 'ſ' then 'S' else c.toUpper

def upper (s : String) : String :=
  String.ofList (s.toList.map upperChar)

end Text
end Marginalia

import Marginalia.Outline.Encode
import Marginalia.Outline.NodeSpan

/-!
# Lines on the console

Lines are shown in colours if the console has them, line by line, so that no
colour runs over a line break, and a text that ends a colour of its own goes on
in the colour around it. Comments and nodes are listed in columns.
-/

namespace Marginalia
namespace CommandLine

inductive Colour where
  | red
  | green
  | yellow
  | cyan
  | white
  | gray
deriving DecidableEq, Repr

namespace Colour

def code : Colour → String
  | .red => "31"
  | .green => "32"
  | .yellow => "33"
  | .cyan => "36"
  | .white => "37"
  | .gray => "90"

def escape (code : String) : String := "\x1b[" ++ code ++ "m"

def ending : String := escape "39"

/-- A text in which a colour goes on after every code that ends one. -/
def goOn (c : Colour) : List Char → List Char
  | '\x1b' :: '[' :: '3' :: '9' :: 'm' :: rest =>
    ending.toList ++ (escape c.code).toList ++ goOn c rest
  | ch :: rest => ch :: goOn c rest
  | [] => []

/-- A line in a colour. A carriage return at its end stands outside the colour. -/
def paintLine (c : Colour) (isLast : Bool) (line : List Char) : String :=
  let returns := !isLast && line.getLast? == some '\r'
  let body := if returns then line.dropLast else line
  escape c.code ++ String.ofList body ++ ending ++ (if returns then "\r" else "")

def paintLines (c : Colour) : List (List Char) → List String
  | [] => []
  | [line] => [c.paintLine true line]
  | line :: rest => c.paintLine false line :: paintLines c rest

/-- A text in a colour, if colours are on. -/
def paint (c : Colour) (isOn : Bool) (s : String) : String :=
  if isOn && !s.isEmpty then Text.join "\n" (c.paintLines (Text.lines (c.goOn s.toList))) else s

end Colour

def commentLine (isOn : Bool) (c : Comment) : String :=
  Colour.gray.paint isOn (Text.padEnd 14 c.span.text) ++ "  " ++
    Colour.cyan.paint isOn (Text.padEnd 5 c.kind.name) ++ "  " ++ c.text

def nodeLine (isOn : Bool) (f : Outline) (n : Outline.NodeSpan) : String :=
  Colour.cyan.paint isOn (Text.padEnd 14 n.identifier) ++ "  " ++
    Colour.gray.paint isOn (Text.padEnd 14 n.span.text) ++ "  " ++ f.labelOf n.identifier ++
    (if Outline.Identifier.isBlock n.identifier then " (body)" else "")

def successLine (isOn : Bool) (text : String) : String :=
  Colour.green.paint isOn ("  " ++ text) ++ "\n"

def errorLine (isOn : Bool) (text : String) : String :=
  Colour.red.paint isOn ("  Error: " ++ text) ++ "\n"

def infoLine (isOn : Bool) (label value : String) : String :=
  Colour.gray.paint isOn ("  " ++ label ++ ": ") ++ Colour.white.paint isOn value ++ "\n"

end CommandLine
end Marginalia

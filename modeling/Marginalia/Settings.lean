import Marginalia.Annotation
import Marginalia.Disk.Operation
import Marginalia.Json.Reader
import Marginalia.Json.Writer
import Marginalia.Outline.Encode
import Marginalia.Schema.Check

/-!
# Settings

The settings of annotation runs, and the document that holds them. Every member
of the document has a default. Members whose names begin with an underscore are
notes for readers and are not looked at; any other unknown member is an issue.
-/

namespace Marginalia

open Association (Policy)

structure Settings where
  policy : Policy
  lineComments : Bool
  blockComments : Bool
  compact : Bool
  pretty : Bool
deriving DecidableEq, Repr, Inhabited

namespace Settings

def preferred : Settings :=
  { policy := .preferred, lineComments := true, blockComments := true, compact := false
    pretty := true }

def wanted (s : Settings) : Comment.Wanted := { line := s.lineComments, block := s.blockComments }

def annotation (s : Settings) : Annotation.Options := { policy := s.policy, wanted := s.wanted }

def format (s : Settings) : Outline.Format := { compact := s.compact, pretty := s.pretty }

def members (s : Settings) : Json.Members :=
  [("associationPolicy", .str s.policy.name), ("includeLineComments", .bool s.lineComments),
    ("includeBlockComments", .bool s.blockComments), ("compactJson", .bool s.compact),
    ("prettyJson", .bool s.pretty)]

def toJson (s : Settings) : Json := .obj s.members

/-- Whether a name marks a note for readers. -/
def isNote (name : String) : Bool := Text.startsWith "_" name

/-- A document without the notes for readers. -/
def withoutNotes : Json → Json
  | .obj ms => .obj (ms.filter fun m => !isNote m.1)
  | v => v

open Schema

def read (ms : Json.Members) : Checked Settings :=
  Settings.mk
    <$> withDefault "associationPolicy" (choice (Policy.all.map fun p => (p.name, p)))
      preferred.policy ms
    <*> withDefault "includeLineComments" boolean preferred.lineComments ms
    <*> withDefault "includeBlockComments" boolean preferred.blockComments ms
    <*> withDefault "compactJson" boolean preferred.compact ms
    <*> withDefault "prettyJson" boolean preferred.pretty ms

def ofJson (v : Json) : Checked Settings :=
  object ["associationPolicy", "includeLineComments", "includeBlockComments", "compactJson",
    "prettyJson"] read (withoutNotes v)

inductive Invalid where
  | unreadable (fault : Disk.Fault)
  | malformed
  | issues (list : List Issue)
deriving Repr

def Invalid.message : Invalid → String
  | .unreadable fault => fault.message
  | .malformed => Json.syntaxMessage
  | .issues list => report list

def parse (text : String) : Except Invalid Settings :=
  match Json.read? text with
  | none => .error .malformed
  | some v =>
    match ofJson v with
    | .ok s => .ok s
    | .bad issues => .error (.issues issues)

def readFile (d : Disk) (path : String) : Except Invalid Settings :=
  match d.read path with
  | .ok text => parse text
  | .error fault => .error (.unreadable fault)

def documented : Json :=
  .obj ([("_comment",
      .str "syntree-comments configuration. Command-line flags override these settings."),
    ("_availableOptions", .obj
      [("associationPolicy", .str ("Comment matching policy: " ++
          Text.join " | " (Policy.all.map Policy.name) ++ " (default: \"" ++
          Policy.preferred.name ++ "\")")),
        ("includeLineComments", .str "Extract // comments (default: true)"),
        ("includeBlockComments", .str "Extract single-line /* */ comments (default: true)"),
        ("compactJson", .str "Omit all spans from JSON output (default: false)"),
        ("prettyJson", .str "Indent JSON output (default: true)")])] ++ preferred.members)

def documentedText : String := documented.render true ++ "\n"

/-- Choices that come before the settings of a file, each of which may be absent. -/
structure Overrides where
  policy : Option String
  lineComments : Option Bool
  blockComments : Option Bool
  compact : Option Bool
  pretty : Option Bool
deriving DecidableEq, Repr, Inhabited

def Overrides.none : Overrides :=
  { policy := .none, lineComments := .none, blockComments := .none, compact := .none
    pretty := .none }

/-- Settings with the given choices; a policy with an unknown name is no choice. -/
def override (o : Overrides) (s : Settings) : Settings :=
  { policy := (o.policy.bind Policy.ofName?).getD s.policy
    lineComments := o.lineComments.getD s.lineComments
    blockComments := o.blockComments.getD s.blockComments
    compact := o.compact.getD s.compact
    pretty := o.pretty.getD s.pretty }

end Settings
end Marginalia

import Marginalia.Log.Event
import Marginalia.Path.Place
import Marginalia.Position

/-!
# Failures

What can go wrong around annotation: a missing file, a parser that cannot be
loaded, source that cannot be read, a document that is no outline, settings
that are not valid, an output that cannot be written. Each failure has a code, a
message for users and one for developers; failures are logged when they arise.
-/

namespace Marginalia

inductive Failure.Code where
  | fileNotFound
  | parserUnavailable
  | unsupportedLanguage
  | parseFailed
  | invalidTree
  | invalidConfig
  | writeFailed
deriving DecidableEq, Repr, Inhabited

def Failure.Code.name : Failure.Code → String
  | .fileNotFound => "FILE_NOT_FOUND"
  | .parserUnavailable => "PARSER_UNAVAILABLE"
  | .unsupportedLanguage => "UNSUPPORTED_LANGUAGE"
  | .parseFailed => "PARSE_FAILED"
  | .invalidTree => "INVALID_TREE"
  | .invalidConfig => "INVALID_CONFIG"
  | .writeFailed => "WRITE_FAILED"

/-- What the error behind a failure tells about itself, as far as it does. -/
structure Failure.Cause where
  name : Option String
  message : Option String
  trace : Option String
deriving DecidableEq, Repr, Inhabited

def Failure.Cause.of (kind message : String) : Failure.Cause :=
  { name := some kind, message := some message, trace := some (kind ++ ": " ++ message) }

def Failure.Cause.ofMessage (message : String) : Failure.Cause := .of "Error" message

inductive Failure where
  | fileNotFound (path : String)
  /-- The grammar cannot be used; `cause` is the error behind it. -/
  | parserUnavailable (details : String) (cause : Option Failure.Cause)
  | unsupportedLanguage (path : String)
  /-- The source cannot be read; `line` and `column` are the numerals of the place. -/
  | parseFailed (path line column : String)
  | invalidTree (details : String)
  | invalidConfig (path details : String)
  /-- The file cannot be written; `kind` and `message` tell of the error behind it. -/
  | writeFailed (path kind message : String)
deriving DecidableEq, Repr, Inhabited

namespace Failure

def parseFailedAt (path : String) (position : Position) : Failure :=
  .parseFailed path position.line.toText position.column.toText

def code : Failure → Code
  | .fileNotFound _ => .fileNotFound
  | .parserUnavailable .. => .parserUnavailable
  | .unsupportedLanguage _ => .unsupportedLanguage
  | .parseFailed .. => .parseFailed
  | .invalidTree _ => .invalidTree
  | .invalidConfig .. => .invalidConfig
  | .writeFailed .. => .writeFailed

def unforeseen : String := "An unexpected error occurred. Please try again."

def userMessage : Failure → String
  | .fileNotFound _ => "The requested file could not be found."
  | .parserUnavailable .. =>
    "The source parser could not be loaded. Reinstall dependencies and try again."
  | .unsupportedLanguage _ =>
    "This file type is not supported. Only Rust (.rs) files can be annotated."
  | .parseFailed _ line _ => "The source file has a syntax error near line " ++ line ++ "."
  | .invalidTree _ => "The syntax tree file is not valid and could not be loaded."
  | .invalidConfig .. => "The configuration file is not valid. Please check its settings."
  | .writeFailed .. => unforeseen

def developerMessage (here : Place) : Failure → String
  | .fileNotFound path => "File not found: " ++ here.display path
  | .parserUnavailable details _ => "Tree-sitter parser unavailable: " ++ details
  | .unsupportedLanguage path => "No grammar registered for: " ++ here.display path
  | .parseFailed path line column =>
    "Syntax error in " ++ here.display path ++ " at " ++ line ++ ":" ++ column
  | .invalidTree details => "Invalid serialized syntax tree: " ++ details
  | .invalidConfig path details => "Invalid config at " ++ here.display path ++ ": " ++ details
  | .writeFailed path _ message => "Failed to write " ++ here.display path ++ ": " ++ message

def cause? : Failure → Option Cause
  | .parserUnavailable _ cause => cause
  | .writeFailed _ kind message => some (.of kind message)
  | _ => none

/-- What is told about a failure, as far as something is. -/
structure Report where
  code : Option String
  userMessage : Option String
  developerMessage : Option String
  cause : Option Cause
deriving DecidableEq, Repr, Inhabited

def report (here : Place) (f : Failure) : Report :=
  { code := some f.code.name
    userMessage := some f.userMessage
    developerMessage := some (f.developerMessage here)
    cause := f.cause? }

/-- The member for a part that may be missing. -/
def member (name : String) (part : Option String) : Json.Members :=
  (part.map fun s => (name, Json.str s)).toList

def shown (part : Option String) : String := part.getD "undefined"

namespace Report

def name (r : Report) : String := "SyntreeError[" ++ shown r.code ++ "]"

def text (r : Report) : String := r.name ++ ": " ++ shown r.developerMessage

def causeMember (withTrace : Bool) (r : Report) : Json.Members :=
  (r.cause.map fun c =>
    ("cause", Json.obj (member "name" c.name ++ member "message" c.message ++
      if withTrace then member "stack" c.trace else []))).toList

def toJson (r : Report) : Json :=
  .obj (member "code" r.code ++ member "userMessage" r.userMessage ++
    member "developerMessage" r.developerMessage ++ r.causeMember false)

def event (r : Report) : Log.Event :=
  .of .error "SyntreeError" (shown r.developerMessage)
    (member "code" r.code ++ member "userMessage" r.userMessage ++ r.causeMember true)

/-- The report of an error that is no failure yet, in a context. -/
def ofError (code context message : String) : Report :=
  { code := some code
    userMessage := some unforeseen
    developerMessage := some (context ++ ": " ++ message)
    cause := some (.ofMessage message) }

end Report
end Failure
end Marginalia

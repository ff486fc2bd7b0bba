import Marginalia.Json.Value
import Marginalia.Text.Basic

/-!
# Issues of a JSON value

What can be wrong with a value at a place in a document. Issues are causes; the
wording of each is given in one function.
-/

namespace Marginalia
namespace Schema

inductive TypeName where
  | string
  | number
  | boolean
  | array
  | object
  | null
deriving DecidableEq, Repr

def TypeName.text : TypeName → String
  | .string => "string"
  | .number => "number"
  | .boolean => "boolean"
  | .array => "array"
  | .object => "object"
  | .null => "null"

def typeOf : Json → TypeName
  | .null => .null
  | .bool _ => .boolean
  | .num _ => .number
  | .str _ => .string
  | .arr _ => .array
  | .obj _ => .object

inductive Problem where
  /-- A member that must be present is missing. -/
  | missing
  /-- A value has another type than the one asked for. -/
  | wrongType (expected received : TypeName)
  /-- A number is no integer. -/
  | notInteger
  /-- A number is below the least one allowed. -/
  | tooSmall (least : Int)
  /-- A value that is no string stands where one of some names is asked for. -/
  | wrongChoiceType (choices : List String) (received : TypeName)
  /-- A string is none of the names asked for. -/
  | wrongChoice (choices : List String) (received : String)
  /-- The name that tells how to read an object is missing or unknown. -/
  | wrongTag (choices : List String)
  /-- An object has members that its shape does not know. -/
  | unknownNames (names : List String)
deriving DecidableEq, Repr

def quoted (s : String) : String := "'" ++ s ++ "'"

def alternatives (choices : List String) : String :=
  Text.join " | " (choices.map quoted)

def Problem.message : Problem → String
  | .missing => "Required"
  | .wrongType expected received => "Expected " ++ expected.text ++ ", received " ++ received.text
  | .notInteger => "Expected integer, received float"
  | .tooSmall least => "Number must be greater than or equal to " ++ toString least
  | .wrongChoiceType choices received =>
    "Expected " ++ alternatives choices ++ ", received " ++ received.text
  | .wrongChoice choices received =>
    "Invalid enum value. Expected " ++ alternatives choices ++ ", received " ++ quoted received
  | .wrongTag choices => "Invalid discriminator value. Expected " ++ alternatives choices
  | .unknownNames names =>
    "Unrecognized key(s) in object: " ++ Text.join ", " (names.map quoted)

/-- A step from a value to a part of it. -/
inductive Step where
  | name (s : String)
  | index (n : Nat)
deriving DecidableEq, Repr

def Step.text : Step → String
  | .name s => s
  | .index n => toString n

structure Issue where
  path : List Step
  problem : Problem
deriving DecidableEq, Repr

/-- An issue in the form `path: wording`; the path of the whole document is empty. -/
def Issue.message (i : Issue) : String :=
  Text.join "." (i.path.map Step.text) ++ ": " ++ i.problem.message

def report (issues : List Issue) : String :=
  Text.join "; " (issues.map Issue.message)

end Schema
end Marginalia

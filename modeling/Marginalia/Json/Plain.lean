import Marginalia.Json.Value
import Marginalia.Number.Shortest
import Marginalia.Text.Basic

/-!
# Plain text of JSON values

A value as it stands in the middle of a sentence: a string is itself, an array
is its elements with commas between them, and an object does not show its
members. In an array `null` is empty.
-/

namespace Marginalia
namespace Json

mutual

def plain : Json → String
  | .null => "null"
  | .bool true => "true"
  | .bool false => "false"
  | .num x => x.toText
  | .str s => s
  | .arr vs => Text.join "," (plainElements vs)
  | .obj _ => "[object Object]"

def plainElements : List Json → List String
  | [] => []
  | .null :: vs => "" :: plainElements vs
  | v :: vs => plain v :: plainElements vs

end

end Json
end Marginalia

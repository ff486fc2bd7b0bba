import Marginalia.Json.Token

/-!
# Reading JSON text

A text is read in two steps, its tokens and then the value that the tokens
spell. Reading is total: the number of tokens bounds the nesting.
-/

namespace Marginalia
namespace Json

open Token

mutual

def readValue : Nat → List Token → Option (Json × List Token)
  | 0, _ => none
  | n + 1, ts =>
    match ts with
    | .null :: rest => some (.null, rest)
    | .bool b :: rest => some (.bool b, rest)
    | .num x :: rest => some (.num x, rest)
    | .str s :: rest => some (.str s, rest)
    | .openBracket :: .closeBracket :: rest => some (.arr [], rest)
    | .openBracket :: rest => (readElements n rest).map fun r => (.arr r.1, r.2)
    | .openBrace :: .closeBrace :: rest => some (.obj [], rest)
    | .openBrace :: rest => (readMembers n rest).map fun r => (.obj (Members.ofList r.1), r.2)
    | _ => none

def readElements : Nat → List Token → Option (List Json × List Token)
  | 0, _ => none
  | n + 1, ts =>
    match readValue n ts with
    | some (v, .comma :: rest) => (readElements n rest).map fun r => (v :: r.1, r.2)
    | some (v, .closeBracket :: rest) => some ([v], rest)
    | _ => none

def readMembers : Nat → List Token → Option (List (String × Json) × List Token)
  | 0, _ => none
  | n + 1, ts =>
    match ts with
    | .str name :: .colon :: rest =>
      match readValue n rest with
      | some (v, .comma :: rest) => (readMembers n rest).map fun r => ((name, v) :: r.1, r.2)
      | some (v, .closeBrace :: rest) => some ([(name, v)], rest)
      | _ => none
    | _ => none

end

def ofTokens? (ts : List Token) : Option Json :=
  match readValue (2 * ts.length + 1) ts with
  | some (v, []) => some v
  | _ => none

/-- The value that a text spells; `none` if the text is no JSON. -/
def read? (text : String) : Option Json :=
  (lex text.toList).bind ofTokens?

/-- The one wording for a text that is no JSON. -/
def syntaxMessage : String := "<json error>"

end Json
end Marginalia

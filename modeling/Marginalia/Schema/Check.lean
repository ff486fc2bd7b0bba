import Marginalia.Number.Order
import Marginalia.Schema.Issue

/-!
# Checked reading of JSON values

Reading a value either gives a result or a list of issues. Independent parts
are all read, and their issues come in the order of the parts.
-/

namespace Marginalia
namespace Schema

inductive Checked (α : Type) where
  | ok (value : α)
  | bad (issues : List Issue)
deriving Repr, DecidableEq

namespace Checked

variable {α β : Type}

def map (f : α → β) : Checked α → Checked β
  | .ok a => .ok (f a)
  | .bad issues => .bad issues

/-- Applies a function to an argument, keeping the issues of both. -/
def seq (f : Checked (α → β)) (x : Unit → Checked α) : Checked β :=
  match f, x () with
  | .ok f, .ok a => .ok (f a)
  | .ok _, .bad issues => .bad issues
  | .bad issues, .ok _ => .bad issues
  | .bad first, .bad second => .bad (first ++ second)

instance : Applicative Checked where
  pure := .ok
  map := map
  seq := seq

/-- The same outcome for a value one step further down. -/
def under (step : Step) : Checked α → Checked α
  | .ok a => .ok a
  | .bad issues => .bad (issues.map fun i => { i with path := step :: i.path })

def problem (p : Problem) : Checked α := .bad [{ path := [], problem := p }]

end Checked

open Checked

variable {α : Type}

abbrev Reader (α : Type) := Json → Checked α

def string : Reader String
  | .str s => .ok s
  | v => problem (.wrongType .string (typeOf v))

def boolean : Reader Bool
  | .bool b => .ok b
  | v => problem (.wrongType .boolean (typeOf v))

/-- An integer that is not below the given one; a number can fail both demands. -/
def integer (least : Int) : Reader Number
  | .num x =>
    let tooSmall : List Issue := if x < .int least then [⟨[], .tooSmall least⟩] else []
    match x with
    | .int n => if tooSmall.isEmpty then .ok (.int n) else .bad tooSmall
    | _ => .bad (⟨[], .notInteger⟩ :: tooSmall)
  | v => problem (.wrongType .number (typeOf v))

/-- One of some names, each of which stands for a value. -/
def choice (choices : List (String × α)) : Reader α
  | .str s =>
    match choices.lookup s with
    | some a => .ok a
    | none => problem (.wrongChoice (choices.map Prod.fst) s)
  | v => problem (.wrongChoiceType (choices.map Prod.fst) (typeOf v))

/-- The elements of an array, the first of which has the given index. -/
def elementsFrom (reader : Reader α) : Nat → List Json → Checked (List α)
  | _, [] => .ok []
  | n, v :: vs =>
    (List.cons <$> (reader v).under (.index n)) <*> elementsFrom reader (n + 1) vs

def array (reader : Reader α) : Reader (List α)
  | .arr vs => elementsFrom reader 0 vs
  | v => problem (.wrongType .array (typeOf v))

def required (name : String) (reader : Reader α) (ms : Json.Members) : Checked α :=
  match ms.lookup name with
  | some v => (reader v).under (.name name)
  | none => (problem .missing).under (.name name)

def optional (name : String) (reader : Reader α) (ms : Json.Members) : Checked (Option α) :=
  match ms.lookup name with
  | some v => some <$> (reader v).under (.name name)
  | none => .ok none

def withDefault (name : String) (reader : Reader α) (value : α) (ms : Json.Members) : Checked α :=
  match ms.lookup name with
  | some v => (reader v).under (.name name)
  | none => .ok value

/-- No members besides the named ones. -/
def noOthers (known : List String) (ms : Json.Members) : Checked Unit :=
  match (ms.map Prod.fst).filter fun name => !known.contains name with
  | [] => .ok ()
  | names => problem (.unknownNames names)

/-- An object that is read member by member and has no members besides the named ones. -/
def object (known : List String) (read : Json.Members → Checked α) : Reader α
  | .obj ms => read ms <* noOthers known ms
  | v => problem (.wrongType .object (typeOf v))

end Schema
end Marginalia

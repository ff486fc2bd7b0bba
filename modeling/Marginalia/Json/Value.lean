import Marginalia.Number.Basic

/-!
# JSON values

A value of the data format. The members of an object keep their order: names
that are array indices come first, in ascending order, and the others follow
in the order in which they were first given. A name has one value, the last
one given.
-/

namespace Marginalia

inductive Json where
  | null
  | bool (value : Bool)
  | num (value : Number)
  | str (value : String)
  | arr (elements : List Json)
  | obj (members : List (String × Json))
deriving Repr, Inhabited, BEq

namespace Json

abbrev Members := List (String × Json)

/-- The array index that a name spells: a decimal numeral without leading zeros,
below the largest index. -/
def indexOf? (name : String) : Option Nat :=
  let cs := name.toList
  if cs.isEmpty || !cs.all Char.isDigit then none
  else
    let n := cs.foldl (fun acc c => 10 * acc + (c.toNat - 48)) 0
    if Nat.toDigits 10 n = cs ∧ n < 4294967295 then some n else none

/-- Whether a new name with index `n` goes in front of a present one. -/
def indexBefore (n : Nat) (name : String) : Bool :=
  match indexOf? name with
  | some m => decide (n < m)
  | none => true

/-- Adds a new member at its place in the order. -/
def Members.insertNew (ms : Members) (name : String) (v : Json) : Members :=
  match indexOf? name with
  | none => ms ++ [(name, v)]
  | some n =>
    ms.takeWhile (fun m => !indexBefore n m.1) ++ (name, v) ::
      ms.dropWhile (fun m => !indexBefore n m.1)

/-- Gives a name a value: in place if the name is present, else as a new member. -/
def Members.put (ms : Members) (name : String) (v : Json) : Members :=
  if ms.any fun m => m.1 == name then
    ms.map fun m => if m.1 == name then (name, v) else m
  else Members.insertNew ms name v

/-- The members that a list of pairs denotes. -/
def Members.ofList (pairs : List (String × Json)) : Members :=
  pairs.foldl (fun ms p => Members.put ms p.1 p.2) []

def get? (name : String) : Json → Option Json
  | .obj ms => ms.lookup name
  | _ => none

/-- Whether a value counts as set: `null`, `false`, zero and the empty string do not. -/
def isSet : Json → Bool
  | .null => false
  | .bool b => b
  | .num x => decide (x ≠ .int 0)
  | .str s => !s.isEmpty
  | .arr _ | .obj _ => true

def int (n : Int) : Json := .num (.ofInt n)

def nat (n : Nat) : Json := int n

end Json
end Marginalia

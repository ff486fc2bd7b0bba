import Marginalia.Number.Basic

/-!
# The text of a number

A number is written with the fewest decimal digits that read back as the same
number, and of those the digits nearest to it. The digits stand positionally
when the decimal point lies between the seventh place after it and the
twenty-first before it, and with an exponent otherwise.
-/

namespace Marginalia
namespace Number

/-- A positive rational, and the rationals that round to the same number as it. -/
structure Neighbourhood where
  num : Nat
  den : Nat
  lowNum : Nat
  lowDen : Nat
  highNum : Nat
  highDen : Nat
  closed : Bool

/-- The quotient `num / den` times a power of two. -/
def scaled (num den : Nat) (e : Int) : Nat × Nat :=
  if 0 ≤ e then (num * twoTo e.toNat, den) else (num, den * twoTo (-e).toNat)

/-- The neighbourhood of `num / den`, which is a number of the format. Its ends are half-way
to the numbers beside it, and belong to it when the last bit is even. -/
def neighbourhood (num den : Nat) : Neighbourhood :=
  let q := lastBit (leadingBit num den)
  let m := if 0 ≤ q then num / (den * twoTo q.toNat) else num * twoTo (-q).toNat / den
  let low := if m = twoTo 52 ∧ -1074 < q then scaled (4 * m - 1) 1 (q - 2)
    else scaled (2 * m - 1) 1 (q - 1)
  let high := scaled (2 * m + 1) 1 (q - 1)
  { num, den, lowNum := low.1, lowDen := low.2, highNum := high.1, highDen := high.2
    closed := m % 2 = 0 }

def Neighbourhood.contains (v : Neighbourhood) (a b : Nat) : Bool :=
  if v.closed then
    decide (v.lowNum * b ≤ a * v.lowDen) && decide (a * v.highDen ≤ v.highNum * b)
  else
    decide (v.lowNum * b < a * v.lowDen) && decide (a * v.highDen < v.highNum * b)

/-- The exponent of ten of the leading decimal digit of `num / den`. -/
def leadingDigit (num den : Nat) : Int :=
  if den ≤ num then (Nat.toDigits 10 (num / den)).length - 1
  else
    match (List.range 400).find? fun j => den ≤ num * tenTo (j + 1) with
    | some j => -((j : Int) + 1)
    | none => -400

def decimal (digits : Nat) (e : Int) : Nat × Nat :=
  if 0 ≤ e then (digits * tenTo e.toNat, 1) else (digits, tenTo (-e).toNat)

/-- On the grid of multiples of `10 ^ e`, the nearer of the two neighbours of a number that
lie in its neighbourhood; of two equally near ones the even one. -/
def onGrid (v : Neighbourhood) (e : Int) : Option Nat :=
  let below := if 0 ≤ e then v.num / (v.den * tenTo e.toNat) else v.num * tenTo (-e).toNat / v.den
  let inside := fun d : Nat =>
    let x := decimal d e
    decide (0 < d) && v.contains x.1 x.2
  let half := decimal (2 * below + 1) e
  let nearerBelow :=
    if 2 * v.num * half.2 = half.1 * v.den then decide (below % 2 = 0)
    else decide (2 * v.num * half.2 < half.1 * v.den)
  match inside below, inside (below + 1) with
  | true, true => some (if nearerBelow then below else below + 1)
  | true, false => some below
  | false, true => some (below + 1)
  | false, false => none

/-- The fewest digits for `num / den` and the exponent of ten of the last of them. -/
def shortest (num den : Nat) : Nat × Int :=
  let v := neighbourhood num den
  let lead := leadingDigit num den
  let found := (List.range 17).findSome? fun k =>
    let e := lead - (k : Nat)
    (onGrid v e).map fun d => (d, e)
  found.getD (num / den, 0)

def stripZeros (ds : List Char) : List Char :=
  (ds.reverse.dropWhile (· = '0')).reverse

/-- Writes significant digits whose decimal point stands after `point` of them. -/
def layout (digits : List Char) (point : Int) : List Char :=
  let k : Int := digits.length
  if k ≤ point ∧ point ≤ 21 then
    digits ++ List.replicate (point - k).toNat '0'
  else if 0 < point ∧ point ≤ 21 then
    digits.take point.toNat ++ '.' :: digits.drop point.toNat
  else if -6 < point ∧ point ≤ 0 then
    '0' :: '.' :: (List.replicate (-point).toNat '0' ++ digits)
  else
    let e := point - 1
    let mantissa := match digits with
      | [] => []
      | [d] => [d]
      | d :: ds => d :: '.' :: ds
    mantissa ++ 'e' :: (if 0 ≤ e then '+' else '-') :: Nat.toDigits 10 e.natAbs

/-- The text of the positive rational `num / den`, which is a number of the format. -/
def positiveText (num den : Nat) : List Char :=
  let s := shortest num den
  let ds := Nat.toDigits 10 s.1
  layout (stripZeros ds) (s.2 + ds.length)

def signed (negative : Bool) (cs : List Char) : List Char :=
  if negative then '-' :: cs else cs

def text : Number → List Char
  | .int n =>
    signed (decide (n < 0))
      (if n.natAbs ≤ twoTo 53 then Nat.toDigits 10 n.natAbs else positiveText n.natAbs 1)
  | .fraction h d =>
    signed (decide (h < 0)) (positiveText (2 * h + 1).natAbs (twoTo (d + 1)))
  | .infinite negative => signed negative "Infinity".toList

def toText (x : Number) : String := String.ofList x.text

end Number
end Marginalia

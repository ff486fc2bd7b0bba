/-!
# Numbers of the data format

A number is an integer, a binary fraction or an infinity: what a binary
floating-point format with 53 significant bits can hold. Every decimal literal
denotes the nearest such number, and of two equally near ones the one whose
last bit is even. Integers up to `2 ^ 53` in size are kept as they are.

A fraction that is no integer is an odd multiple of a power of two, so each
number is written in one way and equal numbers are equal as data.
-/

namespace Marginalia

/-- A number of the data format. -/
inductive Number where
  | int (value : Int)
  /-- The odd number `2 * half + 1` divided by `2 ^ (depth + 1)`. -/
  | fraction (half : Int) (depth : Nat)
  | infinite (negative : Bool)
deriving DecidableEq, Repr, Inhabited

namespace Number

def twoTo (n : Nat) : Nat := Nat.pow 2 n

def tenTo (n : Nat) : Nat := Nat.pow 10 n

/-- The integer nearest to a quotient, a tie going to the even neighbour. -/
def roundDiv (num den : Nat) : Nat :=
  let q := num / den
  let r := 2 * (num % den)
  if r < den then q
  else if den < r then q + 1
  else if q % 2 = 0 then q else q + 1

/-- The exponent of the leading bit of `num / den`, for positive `num` and `den`. -/
def leadingBit (num den : Nat) : Int :=
  let guess : Int := (Nat.log2 num : Int) - (Nat.log2 den : Int)
  let reached := if 0 ≤ guess then den * twoTo guess.toNat ≤ num
    else den ≤ num * twoTo (-guess).toNat
  if reached then guess else guess - 1

/-- The exponent of the last bit that a number with this leading bit keeps:
53 significant bits, and none below `2 ^ (-1074)`. -/
def lastBit (leading : Int) : Int :=
  max (leading - 52) (-1074)

/-- Halves an even numerator as long as the exponent allows. -/
def reduce : Nat → Nat → Nat × Nat
  | m, 0 => (m, 0)
  | m, e + 1 => if m % 2 = 0 then reduce (m / 2) e else (m, e + 1)

def withSign (negative : Bool) (m : Nat) : Int :=
  if negative then -(m : Int) else m

/-- The number `m / 2 ^ e`, for an odd `m` unless `e` is zero. -/
def ofParts (m : Int) : Nat → Number
  | 0 => .int m
  | e + 1 => .fraction ((m - 1) / 2) e

/-- The number nearest to the quotient `num / den`, with the given sign. -/
def ofQuotient (negative : Bool) (num den : Nat) : Number :=
  if num = 0 then .int 0
  else
    let q := lastBit (leadingBit num den)
    if 0 ≤ q then
      let value := roundDiv num (den * twoTo q.toNat) * twoTo q.toNat
      if twoTo 1024 ≤ value then .infinite negative else .int (withSign negative value)
    else
      let parts := reduce (roundDiv (num * twoTo (-q).toNat) den) (-q).toNat
      ofParts (withSign negative parts.1) parts.2

/-- The number nearest to an integer. -/
def ofInt (n : Int) : Number :=
  if n.natAbs ≤ twoTo 53 then .int n else ofQuotient (decide (n < 0)) n.natAbs 1

theorem ofInt_eq_int {n : Int} (h : n.natAbs ≤ twoTo 53) : ofInt n = .int n :=
  if_pos h

def ofNat (n : Nat) : Number := ofInt n

/-- The number that a decimal literal denotes: `digits` times ten to the `exponent`.
Exponents far outside the format's range are decided without computing the power. -/
def ofDecimal (negative : Bool) (digits : Nat) (exponent : Int) : Number :=
  if digits = 0 then .int 0
  else
    let magnitude : Int := (Nat.toDigits 10 digits).length + exponent
    if 310 < magnitude then .infinite negative
    else if magnitude < -330 then .int 0
    else if exponent = 0 then ofInt (withSign negative digits)
    else if 0 ≤ exponent then ofQuotient negative (digits * tenTo exponent.toNat) 1
    else ofQuotient negative digits (tenTo (-exponent).toNat)

def numerator : Number → Int
  | .int n => n
  | .fraction h _ => 2 * h + 1
  | .infinite _ => 0

def exponent : Number → Nat
  | .fraction _ d => d + 1
  | _ => 0

def isFinite : Number → Bool
  | .infinite _ => false
  | _ => true

/-- The number nearest to `num / 2 ^ e`. -/
def nearest (num : Int) (e : Nat) : Number :=
  if e = 0 then ofInt num else ofQuotient (decide (num < 0)) num.natAbs (twoTo e)

/-- The number nearest to a number and an integer together. -/
def addInt (x : Number) (k : Int) : Number :=
  match x with
  | .int n => ofInt (n + k)
  | .fraction h d => nearest (2 * h + 1 + k * twoTo (d + 1)) (d + 1)
  | .infinite negative => .infinite negative

/-- The number nearest to the difference of two numbers. An infinity has no distance from
itself. -/
def sub? : Number → Number → Option Number
  | .infinite a, .infinite b => if a = b then none else some (.infinite a)
  | .infinite a, _ => some (.infinite a)
  | _, .infinite b => some (.infinite !b)
  | x, y =>
    some (nearest (x.numerator * twoTo y.exponent - y.numerator * twoTo x.exponent)
      (x.exponent + y.exponent))

theorem addInt_int {n k : Int} (h : (n + k).natAbs ≤ twoTo 53) :
    addInt (.int n) k = .int (n + k) :=
  ofInt_eq_int h

def floor (x : Number) : Int := x.numerator / twoTo x.exponent

/-- How many of the first `limit` natural numbers are below a number. -/
def countBelow (limit : Nat) : Number → Nat
  | .infinite negative => if negative then 0 else limit
  | x => min (-(-x.numerator / twoTo x.exponent)).toNat limit

end Number
end Marginalia

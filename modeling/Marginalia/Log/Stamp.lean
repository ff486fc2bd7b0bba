/-!
# Time stamps

A time stamp is the date and the time of day of an instant in universal time,
with milliseconds, in the form `YYYY-MM-DDThh:mm:ss.sssZ`. The date follows from
the number of days since the first of March of year 0, where years end with
February and every 400 years have the same number of days.
-/

namespace Marginalia
namespace Log

structure Date where
  year : Nat
  month : Nat
  day : Nat
deriving DecidableEq, Repr

/-- The days from the first of March of year 0 to the first of January of 1970. -/
def daysBefore1970 : Nat := 719468

def daysInCycle : Nat := 146097

/-- The date a number of days after the first of January of 1970. -/
def Date.ofDays (days : Nat) : Date :=
  let whole := days + daysBefore1970
  let cycle := whole / daysInCycle
  let dayOfCycle := whole % daysInCycle
  let yearOfCycle :=
    (dayOfCycle - dayOfCycle / 1460 + dayOfCycle / 36524 - dayOfCycle / 146096) / 365
  let dayOfYear := dayOfCycle - (365 * yearOfCycle + yearOfCycle / 4 - yearOfCycle / 100)
  let monthFromMarch := (5 * dayOfYear + 2) / 153
  let month := if monthFromMarch < 10 then monthFromMarch + 3 else monthFromMarch - 9
  { year := yearOfCycle + 400 * cycle + if month ≤ 2 then 1 else 0
    month
    day := dayOfYear - (153 * monthFromMarch + 2) / 5 + 1 }

/-- A number with zeros in front up to a number of digits. -/
def padded (digits n : Nat) : String :=
  let ds := Nat.toDigits 10 n
  String.ofList (List.replicate (digits - ds.length) '0' ++ ds)

/-- The time stamp of an instant, in milliseconds since the beginning of 1970. -/
def stampOfMillis (millis : Nat) : String :=
  let date := Date.ofDays (millis / 86400000)
  let inDay := millis % 86400000
  padded 4 date.year ++ "-" ++ padded 2 date.month ++ "-" ++ padded 2 date.day ++ "T" ++
    padded 2 (inDay / 3600000) ++ ":" ++ padded 2 (inDay / 60000 % 60) ++ ":" ++
    padded 2 (inDay / 1000 % 60) ++ "." ++ padded 3 (inDay % 1000) ++ "Z"

end Log
end Marginalia

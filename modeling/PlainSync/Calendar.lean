/-!
# Calendar dates

The date of a day counted from the first of January 1970, in the Gregorian calendar carried
on in both directions, and the text of a point in time.
-/

namespace PlainSync

/-- A date. -/
structure Date where
  year : Int
  /-- From 1 to 12. -/
  month : Nat
  /-- From 1. -/
  day : Nat
  deriving DecidableEq, Repr

/-- The date of a day counted from the first of January 1970. Days are counted in cycles of
400 years that begin in March, so that a leap day ends its year. -/
def Date.ofDays (days : Int) : Date :=
  let shifted := days + 719468
  let cycle := shifted / 146097
  let dayOfCycle := (shifted % 146097).toNat
  let yearOfCycle :=
    (dayOfCycle - dayOfCycle / 1460 + dayOfCycle / 36524 - dayOfCycle / 146096) / 365
  let dayOfYear := dayOfCycle - (365 * yearOfCycle + yearOfCycle / 4 - yearOfCycle / 100)
  let monthFromMarch := (5 * dayOfYear + 2) / 153
  let day := dayOfYear - (153 * monthFromMarch + 2) / 5 + 1
  let month := if monthFromMarch < 10 then monthFromMarch + 3 else monthFromMarch - 9
  ⟨yearOfCycle + cycle * 400 + (if month ≤ 2 then 1 else 0), month, day⟩

/-- A number in decimal with zeros in front up to a number of digits. -/
def paddedDecimal (width n : Nat) : String :=
  let digits := (toString n).toList
  String.ofList (List.replicate (width - digits.length) '0' ++ digits)

/-- A point in time: seconds and thousandths since the beginning of 1970. -/
structure Instant where
  seconds : Nat
  milliseconds : Nat
  deriving DecidableEq, Repr

namespace Instant

/-- The beginning of 1970. -/
def epoch : Instant := ⟨0, 0⟩

/-- The text of a point in time, in universal time. -/
def text (instant : Instant) : String :=
  let date := Date.ofDays (instant.seconds / 86400 : Nat)
  let second := instant.seconds % 86400
  paddedDecimal 4 date.year.toNat ++ "-" ++ paddedDecimal 2 date.month ++ "-" ++
    paddedDecimal 2 date.day ++ "T" ++ paddedDecimal 2 (second / 3600) ++ ":" ++
    paddedDecimal 2 (second % 3600 / 60) ++ ":" ++ paddedDecimal 2 (second % 60) ++ "." ++
    paddedDecimal 3 instant.milliseconds ++ "Z"

end Instant

end PlainSync

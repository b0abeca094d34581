import PlainSync.Number.Double

/-!
# The shortest decimal of a double

The decimal with the fewest digits that lies among the reals which round to a number, and of
those the nearest to it. A grid of decimals has a point among those reals only if one of the
two points next to the number is among them, so two points of each grid are tried.
-/

namespace PlainSync

/-- A decimal: the digits times a power of ten. -/
structure Decimal where
  digits : Nat
  exponent : Int
  deriving DecidableEq, Repr

namespace Double

/-- A positive number and the ends of the reals that round to it, counted in units that are a
quarter of the distance to the next number. -/
structure Interval where
  low : Nat
  middle : Nat
  high : Nat
  /-- The ends belong to it. -/
  closed : Bool
  unit : Int

/-- The reals that round to a positive number. Below a power of two they reach half as far. -/
def interval (x : Double) : Interval :=
  let below := if x.significand = Nat.pow 2 52 ∧ leastExponent < x.exponent then 1 else 2
  ⟨4 * x.significand - below, 4 * x.significand, 4 * x.significand + 2,
    x.significand % 2 = 0, x.exponent - 2⟩

/-- The point of the grid of multiples of `10 ^ exponent` next to the number, if it lies among
the reals that round to it. Half-way between two points it is the even one. -/
def Interval.gridPoint? (i : Interval) (exponent : Int) : Option Nat :=
  let grid := (if 0 ≤ exponent then Nat.pow 10 exponent.toNat else 1) *
    (if i.unit < 0 then Nat.pow 2 (-i.unit).toNat else 1)
  let unit := (if 0 ≤ i.unit then Nat.pow 2 i.unit.toNat else 1) *
    (if exponent < 0 then Nat.pow 10 (-exponent).toNat else 1)
  let inside (point : Nat) : Bool :=
    if i.closed then i.low * unit ≤ point * grid && point * grid ≤ i.high * unit
    else i.low * unit < point * grid && point * grid < i.high * unit
  let floor := i.middle * unit / grid
  let nearest := roundDiv (i.middle * unit) grid
  let other := if nearest = floor then floor + 1 else floor
  if inside nearest then some nearest
  else if inside other then some other
  else none

/-- The greatest exponent of a power of ten that is not above a fraction, found below a bound.
-/
def log10Below (f : Fraction) : Nat → Int
  | 0 => -400
  | steps + 1 =>
    let exponent : Int := steps - 400
    let reached := if 0 ≤ exponent then
        f.denominator * Nat.pow 10 exponent.toNat ≤ f.numerator
      else f.denominator ≤ f.numerator * Nat.pow 10 (-exponent).toNat
    if reached then exponent else log10Below f steps

/-- Try grids from coarse to fine. -/
def firstGrid (i : Interval) (exponent : Int) : Nat → Decimal
  | 0 => ⟨0, 0⟩
  | steps + 1 =>
    match i.gridPoint? exponent with
    | some digits => ⟨digits, exponent⟩
    | none => firstGrid i (exponent - 1) steps

/-- The shortest decimal that reads back as a number, without its sign. -/
def shortest (x : Double) : Decimal :=
  if x.significand = 0 then ⟨0, 0⟩
  else firstGrid x.interval (log10Below x.magnitude 800 + 1) 19

end Double

end PlainSync

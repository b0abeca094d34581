/-!
# Floating-point numbers of double precision

A finite binary number of 64 bits as its significand and its exponent, and rounding to the
nearest such number. All arithmetic is exact until it is rounded.
-/

namespace PlainSync

/-- The whole number next to a quotient. Half-way between two it is the even one. -/
def roundDiv (numerator denominator : Nat) : Nat :=
  let quotient := numerator / denominator
  let twice := 2 * (numerator % denominator)
  if twice < denominator then quotient
  else if denominator < twice then quotient + 1
  else quotient + quotient % 2

/-- A positive fraction. -/
structure Fraction where
  numerator : Nat
  denominator : Nat
  deriving DecidableEq, Repr

namespace Fraction

/-- The fraction times a power of two. -/
def shift (f : Fraction) (exponent : Int) : Fraction :=
  if 0 ≤ exponent then ⟨f.numerator * Nat.pow 2 exponent.toNat, f.denominator⟩
  else ⟨f.numerator, f.denominator * Nat.pow 2 (-exponent).toNat⟩

/-- The product of two fractions. -/
def mul (f g : Fraction) : Fraction :=
  ⟨f.numerator * g.numerator, f.denominator * g.denominator⟩

/-- The quotient of two fractions. -/
def div (f g : Fraction) : Fraction :=
  ⟨f.numerator * g.denominator, f.denominator * g.numerator⟩

/-- The greatest exponent of a power of two that is not above the fraction. -/
def log2 (f : Fraction) : Int :=
  let guess : Int := f.numerator.log2 - f.denominator.log2
  let scaled := f.shift (-guess)
  if scaled.denominator ≤ scaled.numerator then guess else guess - 1

end Fraction

/-- A finite number of double precision: the significand times two to the exponent. -/
structure Double where
  negative : Bool
  /-- Less than `2 ^ 53`, and at least half of that unless the exponent is the least. -/
  significand : Nat
  /-- From -1074 to 971. -/
  exponent : Int
  deriving DecidableEq, Repr

namespace Double

/-- The least exponent. -/
def leastExponent : Int := -1074

/-- The greatest exponent. -/
def greatestExponent : Int := 971

/-- Zero, of either sign. -/
def zero (negative : Bool) : Double := ⟨negative, 0, leastExponent⟩

/-- The distance from zero. -/
def magnitude (x : Double) : Fraction := Fraction.shift ⟨x.significand, 1⟩ x.exponent

/-- The number nearest to a fraction, if that is not beyond the greatest one. -/
def nearest? (negative : Bool) (f : Fraction) : Option Double :=
  if f.numerator = 0 then some (zero negative)
  else
    let exponent := max (f.log2 - 52) leastExponent
    let scaled := f.shift (-exponent)
    let significand := roundDiv scaled.numerator scaled.denominator
    let (significand, exponent) :=
      if significand = Nat.pow 2 53 then (Nat.pow 2 52, exponent + 1) else (significand, exponent)
    if greatestExponent < exponent then none else some ⟨negative, significand, exponent⟩

/-- A power of ten, rounded. -/
def powerOfTen? (exponent : Nat) : Option Double := nearest? false ⟨Nat.pow 10 exponent, 1⟩

/-- The number times a power of ten, rounded. A far negative power is taken in steps of the
greatest power of ten there is, and each step is rounded. -/
def scaleByTen? (x : Double) (exponent : Int) : Option Double :=
  if x.significand = 0 then some x
  else if 308 < exponent then none
  else
    match powerOfTen? (min exponent.natAbs 308) with
    | none => none
    | some power =>
      if 0 ≤ exponent then nearest? x.negative (x.magnitude.mul power.magnitude)
      else
        match nearest? x.negative (x.magnitude.div power.magnitude) with
        | none => none
        | some y => if exponent < -308 then y.scaleByTen? (exponent + 308) else some y
termination_by exponent.natAbs
decreasing_by omega

/-- The number that a decimal is read as: its digits are rounded, and then the product with the
power of ten. There is none beyond the greatest number. -/
def ofDecimal? (negative : Bool) (digits : Nat) (exponent : Int) : Option Double :=
  (nearest? negative ⟨digits, 1⟩).bind fun x => x.scaleByTen? exponent

end Double

end PlainSync

/-!
# Double-precision numbers by their bits

A `Binary64` is the 64-bit word of a double-precision number.  Its fields give
an exact value `significand · 2 ^ exponent`, and every operation that rounds
goes through one function, `ofRatio`, which rounds an exact quotient of
natural numbers to nearest with ties to even.
-/

namespace VisualQuery

/-- The word of a double-precision number. -/
structure Binary64 where
  bits : UInt64
deriving DecidableEq, Repr, Inhabited

namespace Binary64

/-- The number of fractions, which is the weight of the exponent field. -/
def fractionBound : Nat := 1 <<< 52

/-- The weight of the sign bit. -/
def signWeight : Nat := 1 <<< 63

/-- The magnitude bits of an infinity. -/
def infinityBits : Nat := 0x7ff * fractionBound

/-- The number with a sign and the remaining 63 bits. -/
def ofMagnitude (negative : Bool) (magnitude : Nat) : Binary64 :=
  ⟨UInt64.ofNat (if negative then signWeight + magnitude else magnitude)⟩

/-- Zero with a sign. -/
def zero (negative : Bool) : Binary64 := ofMagnitude negative 0

/-- Infinity with a sign. -/
def infinity (negative : Bool) : Binary64 := ofMagnitude negative infinityBits

/-- The number that is not a number, with a sign. -/
def notANumber (negative : Bool) : Binary64 :=
  ofMagnitude negative (infinityBits + fractionBound / 2)

/-- The sign bit. -/
def negative (x : Binary64) : Bool := signWeight ≤ x.bits.toNat

/-- All bits but the sign. -/
def magnitude (x : Binary64) : Nat := x.bits.toNat % signWeight

/-- The biased exponent field. -/
def exponentField (x : Binary64) : Nat := x.magnitude / fractionBound

/-- The fraction field. -/
def fraction (x : Binary64) : Nat := x.magnitude % fractionBound

/-- Neither infinite nor a non-number. -/
def isFinite (x : Binary64) : Bool := x.magnitude < infinityBits

/-- One of the two infinities. -/
def isInfinite (x : Binary64) : Bool := x.magnitude = infinityBits

/-- Not a number. -/
def isNaN (x : Binary64) : Bool := infinityBits < x.magnitude

/-- One of the two zeros. -/
def isZero (x : Binary64) : Bool := x.magnitude = 0

/-- The integer `m` of the exact magnitude `m · 2 ^ q` of a finite number. -/
def significand (x : Binary64) : Nat :=
  if x.exponentField = 0 then x.fraction else fractionBound + x.fraction

/-- The exponent `q` of the exact magnitude `m · 2 ^ q` of a finite number. -/
def exponent (x : Binary64) : Int :=
  if x.exponentField = 0 then -1074 else (x.exponentField : Int) - 1075

/-- The same magnitude with the other sign. -/
def negate (x : Binary64) : Binary64 := ofMagnitude (!x.negative) x.magnitude

/-- The quotient of two naturals rounded to the nearest natural, ties to even. -/
def roundQuotient (numerator denominator : Nat) : Nat :=
  let floor := numerator / denominator
  let twice := 2 * (numerator % denominator)
  if twice < denominator then floor
  else if denominator < twice then floor + 1
  else floor + floor % 2

/-- Multiply a pair of numerator and denominator by `base ^ exponent`. -/
def scaleRatio (base : Nat) (exponent : Int) (ratio : Nat × Nat) : Nat × Nat :=
  if 0 ≤ exponent then (ratio.1 * base.pow exponent.toNat, ratio.2)
  else (ratio.1, ratio.2 * base.pow (-exponent).toNat)

/-- The exponent of the grid on which a positive quotient is rounded: 53 bits
are kept, fewer when the number is subnormal. -/
def gridExponent (numerator denominator : Nat) : Int :=
  let estimate : Int := (numerator.log2 : Int) - denominator.log2
  let scaled := scaleRatio 2 estimate (1, 1)
  let floorLog : Int :=
    if numerator * scaled.2 < denominator * scaled.1 then estimate - 1 else estimate
  max (-1074) (floorLog - 52)

/-- A signed quotient rounded to nearest, ties to even; a magnitude past the
largest finite one becomes infinite. -/
def ofRatio (negative : Bool) (numerator denominator : Nat) : Binary64 :=
  if numerator = 0 then zero negative
  else
    let grid := gridExponent numerator denominator
    let scaled := scaleRatio 2 (-grid) (numerator, denominator)
    let rounded := roundQuotient scaled.1 scaled.2
    ofMagnitude negative (min infinityBits ((grid + 1074).toNat * fractionBound + rounded))

/-- The number nearest to an integer. -/
def ofInt (value : Int) : Binary64 := ofRatio (value < 0) value.natAbs 1

/-- The number nearest to `digits · 10 ^ exponent`. -/
def ofDecimal (negative : Bool) (digits : Nat) (exponent : Int) : Binary64 :=
  if digits = 0 then zero negative
  else
    let magnitude : Int := (digits.log2 : Int) * 3 / 10 + exponent
    if 400 < magnitude then infinity negative
    else if magnitude < -800 then zero negative
    else
      let ratio := scaleRatio 10 exponent (digits, 1)
      ofRatio negative ratio.1 ratio.2

/-- The exact magnitude of a finite number as numerator and denominator. -/
def ratio (x : Binary64) : Nat × Nat := scaleRatio 2 x.exponent (x.significand, 1)

/-- The rounded product of two finite numbers. -/
def multiply (x y : Binary64) : Binary64 :=
  let left := x.ratio
  let right := y.ratio
  ofRatio (x.negative != y.negative) (left.1 * right.1) (left.2 * right.2)

/-- The rounded quotient of two finite numbers, the second one not zero. -/
def divide (x y : Binary64) : Binary64 :=
  let left := x.ratio
  let right := y.ratio
  ofRatio (x.negative != y.negative) (left.1 * right.2) (left.2 * right.1)

/-- The integer that a finite number equals, if it is one. -/
def toInt? (x : Binary64) : Option Int :=
  if x.isFinite then
    let exact := x.ratio
    if exact.1 % exact.2 = 0 then
      let size : Int := exact.1 / exact.2
      some (if x.negative then -size else size)
    else none
  else none

end Binary64
end VisualQuery

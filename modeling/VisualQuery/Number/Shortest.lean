import VisualQuery.Number.Binary64

/-!
# Shortest decimals

The shortest decimal of a finite positive double is the one with the fewest
digits among the decimals that round to it, and of those the nearest.  The
search walks decimal grids from coarse to fine.  On each grid only the two
neighbours of the exact value can round back to it, so the first grid with a
hit has the fewest digits.
-/

namespace VisualQuery

/-- Which of two equally near neighbours is taken. -/
inductive TieRule where
  | toEven
  | upward
deriving DecidableEq, Repr

/-- The exact value `digits · 10 ^ exponent`. -/
structure Decimal where
  digits : Nat
  exponent : Int
deriving DecidableEq, Repr

namespace Decimal

/-- Move trailing zeros from the digits to the exponent; at most `steps` of them. -/
def stripZeros : (steps : Nat) → Decimal → Decimal
  | 0, decimal => decimal
  | steps + 1, decimal =>
    if decimal.digits ≠ 0 ∧ decimal.digits % 10 = 0 then
      stripZeros steps ⟨decimal.digits / 10, decimal.exponent + 1⟩
    else decimal

end Decimal

namespace Binary64

/-- The interval of reals that round to a finite positive number, in units of
`2 ^ (exponent - 2)`: lower end, the number itself, upper end. -/
def roundingInterval (x : Binary64) : Nat × Nat × Nat :=
  let value := 4 * x.significand
  let lower := if x.fraction = 0 ∧ 1 < x.exponentField then value - 1 else value - 2
  (lower, value, value + 2)

/-- Whether a grid point lies in the interval; its ends belong to it exactly
when the significand is even. -/
def inInterval (x : Binary64) (lower point upper : Nat) : Bool :=
  if x.significand % 2 = 0 then lower ≤ point && point ≤ upper
  else lower < point && point < upper

/-- The neighbour of a finite positive number on the grid of multiples of
`10 ^ grid` that rounds to it, the nearer one if both do. -/
def neighbour? (tie : TieRule) (x : Binary64) (grid : Int) : Option Nat :=
  let (lower, value, upper) := x.roundingInterval
  let unit := scaleRatio 10 (-grid) (scaleRatio 2 (x.exponent - 2) (1, 1))
  let below := value * unit.1 / unit.2
  let remainder := value * unit.1 % unit.2
  let holds (point : Nat) : Bool :=
    x.inInterval (lower * unit.1) (point * unit.2) (upper * unit.1)
  match holds below, holds (below + 1) with
  | false, false => none
  | true, false => some below
  | false, true => some (below + 1)
  | true, true =>
    if 2 * remainder < unit.2 then some below
    else if unit.2 < 2 * remainder then some (below + 1)
    else match tie with
      | .toEven => some (below + below % 2)
      | .upward => some (below + 1)

/-- A decimal exponent above the first digit of a finite positive number. -/
def gridCeiling (x : Binary64) : Int :=
  ((x.significand.log2 : Int) + x.exponent + 1) * 30103 / 100000 + 2

/-- The shortest decimal that rounds to a finite positive number. -/
def shortest (tie : TieRule) (x : Binary64) : Decimal :=
  let grids := (List.range 24).map fun (step : Nat) => x.gridCeiling - (step : Int)
  match grids.findSome? fun grid => (x.neighbour? tie grid).map fun digits => (digits, grid) with
  | some (digits, grid) => Decimal.stripZeros 24 ⟨digits, grid⟩
  | none => ⟨0, 0⟩

end Binary64
end VisualQuery

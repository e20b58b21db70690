import VisualQuery.Number.Shortest

/-!
# Written forms of double-precision numbers

Both forms write the shortest decimal.  The scientific form keeps a fraction
or an exponent in every number, so that it reads back as a non-integer; the
positional form writes plain digits however large or small the number is.
-/

namespace VisualQuery
namespace Binary64

/-- Digits with the point `places` digits from the right end of the number. -/
def pointedDigits (digits : List Char) (places : Nat) : List Char :=
  if digits.length ≤ places then
    '0' :: '.' :: (List.replicate (places - digits.length) '0' ++ digits)
  else
    digits.take (digits.length - places) ++ '.' :: digits.drop (digits.length - places)

/-- Scientific layout of a positive decimal: positional while the exponent of
the first digit lies from -5 to 15, `.0` after whole numbers, else one digit
before the point and a signed exponent. -/
def scientificLayout (decimal : Decimal) : List Char :=
  let digits := (Nat.repr decimal.digits).toList
  let leading : Int := digits.length + decimal.exponent - 1
  if -5 ≤ leading ∧ leading < 16 then
    if 0 ≤ decimal.exponent then
      digits ++ List.replicate decimal.exponent.toNat '0' ++ ['.', '0']
    else pointedDigits digits (-decimal.exponent).toNat
  else
    let mantissa :=
      if digits.length = 1 then digits else pointedDigits digits (digits.length - 1)
    let sign := if leading < 0 then '-' else '+'
    mantissa ++ 'e' :: sign :: (Nat.repr leading.natAbs).toList

/-- Positional layout of a positive decimal. -/
def positionalLayout (decimal : Decimal) : List Char :=
  let digits := (Nat.repr decimal.digits).toList
  if 0 ≤ decimal.exponent then digits ++ List.replicate decimal.exponent.toNat '0'
  else pointedDigits digits (-decimal.exponent).toNat

/-- A sign in front of the written magnitude. -/
def signed (x : Binary64) (magnitude : List Char) : String :=
  String.ofList (if x.negative then '-' :: magnitude else magnitude)

/-- The scientific form; there is none for infinities and non-numbers. -/
def scientific? (x : Binary64) : Option String :=
  if !x.isFinite then none
  else if x.isZero then some (x.signed ['0', '.', '0'])
  else some (x.signed (scientificLayout (x.shortest .toEven)))

/-- The positional form, with words for infinities and non-numbers. -/
def positional (x : Binary64) : String :=
  if x.isNaN then "NaN"
  else if x.isInfinite then x.signed ['i', 'n', 'f']
  else if x.isZero then x.signed ['0']
  else x.signed (positionalLayout (x.shortest .upward))

end Binary64
end VisualQuery

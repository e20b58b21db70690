import VisualQuery.Toml.Text

/-!
# Numbers and dates of TOML

Integers have 64 signed bits, floats are rounded to the nearest double.  Dates
and times are checked and kept as text in one normal form; in the JSON tree
they are an object with one member of a reserved name.
-/

namespace VisualQuery
namespace Toml

open Json (isDigit digitValue)

/-- The reserved member name of a date or time. -/
def datetimeMember : String := "$__toml_private_datetime"

/-- The number written by decimal digits. -/
def decimalValue (digits : List Char) : Nat :=
  digits.foldl (fun value digit => value * 10 + digitValue digit) 0

/-! ## Digits -/

/-- Read digits after the first one; an underscore may stand between two. -/
def readMoreDigits? (accepts : Char → Bool) : List Char → Option (List Char × List Char)
  | '_' :: c :: rest =>
    if accepts c then (readMoreDigits? accepts rest).map fun (tail, rest) => (c :: tail, rest)
    else none
  | c :: rest =>
    if c = '_' then none
    else if accepts c then
      (readMoreDigits? accepts rest).map fun (tail, rest) => (c :: tail, rest)
    else some ([], c :: rest)
  | [] => some ([], [])

/-- Read digits with underscores between them. -/
def readSpacedDigits? (accepts : Char → Bool) : List Char → Option (List Char × List Char)
  | c :: rest =>
    if accepts c then (readMoreDigits? accepts rest).map fun (tail, rest) => (c :: tail, rest)
    else none
  | [] => none

/-- Read an optional sign; true means negative. -/
def readSign : List Char → Bool × List Char
  | '-' :: rest => (true, rest)
  | '+' :: rest => (false, rest)
  | text => (false, text)

/-- Read the digits of a whole number; a leading zero stands alone. -/
def readWhole? : List Char → Option (List Char × List Char)
  | '0' :: rest => some (['0'], rest)
  | text => readSpacedDigits? isDigit text

/-! ## Numbers -/

/-- An integer that fits 64 signed bits. -/
def integer? (negative : Bool) (magnitude : Nat) : Option Json :=
  let value : Int := if negative then -magnitude else magnitude
  if FitsSigned value then some (.int value) else none

/-- Read the digits of an integer in another base. -/
def readBased? (base : Nat) (text : List Char) : Option (Json × List Char) := do
  let accepts (c : Char) : Bool :=
    match Json.hexValue? c with
    | some digit => digit < base
    | none => false
  let (digits, rest) ← readSpacedDigits? accepts text
  let value := digits.foldl (fun value digit => value * base + (Json.hexValue? digit).getD 0) 0
  pure (← integer? false value, rest)

/-- Read an integer. -/
def readInteger? : List Char → Option (Json × List Char)
  | '0' :: 'x' :: rest => readBased? 16 rest
  | '0' :: 'o' :: rest => readBased? 8 rest
  | '0' :: 'b' :: rest => readBased? 2 rest
  | text => do
    let (negative, rest) := readSign text
    let (digits, rest) ← readWhole? rest
    pure (← integer? negative (decimalValue digits), rest)

/-- Read the exponent of a float. -/
def readExponent? : List Char → Option (Int × List Char)
  | 'e' :: rest | 'E' :: rest => do
    let (negative, rest) := readSign rest
    let (digits, rest) ← readSpacedDigits? isDigit rest
    let magnitude : Int := decimalValue digits
    pure (if negative then -magnitude else magnitude, rest)
  | _ => none

/-- Read the fraction of a float and the exponent behind it, if any. -/
def readFraction? : List Char → Option ((List Char × Int) × List Char)
  | '.' :: rest => do
    let (digits, rest) ← readSpacedDigits? isDigit rest
    match rest with
    | 'e' :: _ | 'E' :: _ =>
      let (exponent, rest) ← readExponent? rest
      pure ((digits, exponent), rest)
    | rest => pure ((digits, 0), rest)
  | text => (readExponent? text).map fun (exponent, rest) => (([], exponent), rest)

/-- Read the name of an infinity or a non-number. -/
def readSpecial? (negative : Bool) : List Char → Option (Json × List Char)
  | 'i' :: 'n' :: 'f' :: rest => some (.float (.infinity negative), rest)
  | 'n' :: 'a' :: 'n' :: rest => some (.float (.notANumber negative), rest)
  | _ => none

/-- Read a float.  A float too large for a double is refused, but a negative
one becomes infinite. -/
def readFloat? (text : List Char) : Option (Json × List Char) :=
  let (negative, unsigned) := readSign text
  let ordinary := do
    let (whole, rest) ← readWhole? unsigned
    let ((fraction, exponent), rest) ← readFraction? rest
    let value := Binary64.ofDecimal negative (decimalValue (whole ++ fraction))
      (exponent - fraction.length)
    if value = .infinity false then none else pure (Json.float value, rest)
  ordinary <|> readSpecial? negative unsigned

/-! ## Dates and times -/

/-- Read a fixed number of decimal digits as a number within bounds. -/
def readField? (count least most : Nat) (text : List Char) : Option (Nat × List Char) :=
  let digits := text.take count
  let value := decimalValue digits
  if digits.length = count ∧ digits.all isDigit ∧ least ≤ value ∧ value ≤ most then
    some (value, text.drop count)
  else none

/-- The number of days of a month. -/
def daysInMonth (year month : Nat) : Nat :=
  if month = 2 then
    if year % 4 = 0 ∧ (year % 100 ≠ 0 ∨ year % 400 = 0) then 29 else 28
  else if month = 4 ∨ month = 6 ∨ month = 9 ∨ month = 11 then 30
  else 31

/-- A number with leading zeros. -/
def padded (width value : Nat) : List Char :=
  let digits := (Nat.repr value).toList
  List.replicate (width - digits.length) '0' ++ digits

/-- Read a date in its normal form. -/
def readDate? (text : List Char) : Option (List Char × List Char) := do
  let (year, rest) ← readField? 4 0 9999 text
  let rest ← Json.expect? ['-'] rest
  let (month, rest) ← readField? 2 1 12 rest
  let rest ← Json.expect? ['-'] rest
  let (day, rest) ← readField? 2 1 (daysInMonth year month) rest
  pure (padded 4 year ++ '-' :: padded 2 month ++ '-' :: padded 2 day, rest)

/-- Read the fraction of a second: nine digits count, trailing zeros are
dropped. -/
def readSecondFraction? : List Char → Option (List Char × List Char)
  | '.' :: rest =>
    match rest.takeWhile isDigit with
    | [] => none
    | digits =>
      let kept := ((digits.take 9).reverse.dropWhile (· = '0')).reverse
      some (if kept.isEmpty then [] else '.' :: kept, rest.dropWhile isDigit)
  | text => some ([], text)

/-- Read a time of day in its normal form. -/
def readTime? (text : List Char) : Option (List Char × List Char) := do
  let (hour, rest) ← readField? 2 0 23 text
  let rest ← Json.expect? [':'] rest
  let (minute, rest) ← readField? 2 0 59 rest
  let rest ← Json.expect? [':'] rest
  let (second, rest) ← readField? 2 0 60 rest
  let (fraction, rest) ← readSecondFraction? rest
  pure (padded 2 hour ++ ':' :: padded 2 minute ++ ':' :: padded 2 second ++ fraction, rest)

/-- Read the distance to universal time, if there is one. -/
def readOffset? : List Char → Option (List Char × List Char)
  | 'Z' :: rest | 'z' :: rest => some (['Z'], rest)
  | sign :: rest =>
    if sign = '+' ∨ sign = '-' then do
      let (hours, rest) ← readField? 2 0 23 rest
      let rest ← Json.expect? [':'] rest
      let (minutes, rest) ← readField? 2 0 59 rest
      let shown := if hours = 0 ∧ minutes = 0 then '+' else sign
      pure (shown :: padded 2 hours ++ ':' :: padded 2 minutes, rest)
    else some ([], sign :: rest)
  | [] => some ([], [])

/-- Read the time of day behind a date, if there is one. -/
def readTimeOfDate? : List Char → Option (List Char × List Char)
  | delimiter :: rest =>
    if delimiter = 'T' ∨ delimiter = 't' ∨ delimiter = ' ' then
      match readTime? rest with
      | some (time, rest) => do
        let (offset, rest) ← readOffset? rest
        pure ('T' :: time ++ offset, rest)
      | none => some ([], delimiter :: rest)
    else some ([], delimiter :: rest)
  | [] => some ([], [])

/-- A date or time as a JSON tree. -/
def datetime (text : List Char) : Json := .obj [(datetimeMember, .str (String.ofList text))]

/-- Read a date, a time of day or both. -/
def readDatetime? (text : List Char) : Option (Json × List Char) :=
  match readDate? text with
  | some (date, rest) => do
    let (time, rest) ← readTimeOfDate? rest
    pure (datetime (date ++ time), rest)
  | none => (readTime? text).map fun (time, rest) => (datetime time, rest)

/-- Read a number, a date or a time. -/
def readScalar? (text : List Char) : Option (Json × List Char) :=
  readDatetime? text <|> readFloat? text <|> readInteger? text

end Toml
end VisualQuery

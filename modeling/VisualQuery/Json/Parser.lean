import VisualQuery.Json.Basic

/-!
# Reading JSON

Recognisers over characters that return what they leave unread.  The grammar
alone decides whether text is accepted.  What the grammar allows and no value
can hold becomes `unreadable`: numbers beyond the largest double, unpaired
halves of a surrogate pair, and containers more than 127 levels deep.
-/

namespace VisualQuery
namespace Json

/-- Whether a character is a decimal digit. -/
def isDigit (c : Char) : Bool := '0' ≤ c && c ≤ '9'

/-- The value of a decimal digit. -/
def digitValue (c : Char) : Nat := c.toNat - 48

/-- The value of a hexadecimal digit. -/
def hexValue? (c : Char) : Option Nat :=
  if '0' ≤ c && c ≤ '9' then some (c.toNat - 48)
  else if 'a' ≤ c && c ≤ 'f' then some (c.toNat - 87)
  else if 'A' ≤ c && c ≤ 'F' then some (c.toNat - 55)
  else none

/-- Whether a character is blank between tokens. -/
def isBlank (c : Char) : Bool := c = ' ' || c = '\n' || c = '\t' || c = '\r'

/-- The text from its first token on. -/
def skipBlanks (text : List Char) : List Char := text.dropWhile isBlank

/-- Remove a word from the front of the text. -/
def expect? : (word text : List Char) → Option (List Char)
  | [], text => some text
  | c :: word, d :: text => if c = d then expect? word text else none
  | _ :: _, [] => none

/-! ## Numbers -/

/-- Append digits to a number while it fits an unsigned 64-bit word; the
result counts the digits that were taken. -/
def absorbDigits (value : Nat) : (digits : List Char) → Nat × Nat
  | [] => (value, 0)
  | digit :: rest =>
    let next := value * 10 + digitValue digit
    if next < unsignedBound then
      let (final, taken) := absorbDigits next rest
      (final, taken + 1)
    else (value, 0)

/-- An exponent too large for a signed 32-bit word. -/
def exponentBound : Nat := 1 <<< 31

/-- The number written by decimal digits, at most `exponentBound`. -/
def exponentMagnitude (digits : List Char) : Nat :=
  digits.foldl (fun value digit => min exponentBound (value * 10 + digitValue digit)) 0

/-- The nearest double of a power of ten up to `10 ^ 308`. -/
def powerOfTen (exponent : Nat) : Binary64 := .ofDecimal false 1 exponent

/-- Multiply a nonnegative double by a power of ten, in rounded steps of at
most 308 decades; there is no result past the largest double. -/
def scaleDecades (value : Binary64) (exponent : Int) : Option Binary64 :=
  if 0 ≤ exponent then
    if exponent ≤ 308 then
      let product := value.multiply (powerOfTen exponent.toNat)
      if product.isInfinite then none else some product
    else if value.isZero then some value
    else none
  else if -308 ≤ exponent then some (value.divide (powerOfTen (-exponent).toNat))
  else if value.isZero then some value
  else scaleDecades (value.divide (powerOfTen 308)) (exponent + 308)
termination_by (-exponent).toNat

/-- A number literal cut into its parts. -/
structure NumberLiteral where
  negative : Bool
  whole : List Char
  fraction : Option (List Char)
  /-- Sign (true for negative) and digits of the exponent. -/
  exponent : Option (Bool × List Char)

/-- The value of a number literal.  Of a long digit sequence only the leading
digits that fit an unsigned 64-bit word count. -/
def NumberLiteral.value (literal : NumberLiteral) : Json :=
  let (wholeValue, wholeTaken) := absorbDigits 0 literal.whole
  let fraction := literal.fraction.getD []
  let signed (magnitude : Binary64) : Json :=
    .float (if literal.negative then magnitude.negate else magnitude)
  if wholeTaken = literal.whole.length ∧ literal.fraction.isNone ∧ literal.exponent.isNone then
    if !literal.negative then .int wholeValue
    else if wholeValue ≠ 0 ∧ wholeValue ≤ signedBound then .int (-wholeValue)
    else signed (.ofInt wholeValue)
  else
    let (significand, fractionTaken) := absorbDigits wholeValue fraction
    let start : Int := (literal.whole.length - wholeTaken : Nat) - (fractionTaken : Int)
    match literal.exponent with
    | none =>
      match scaleDecades (.ofInt significand) start with
      | some magnitude => signed magnitude
      | none => .unreadable
    | some (negative, digits) =>
      let magnitude := exponentMagnitude digits
      if magnitude < exponentBound then
        let exponent := if negative then start - magnitude else start + magnitude
        match scaleDecades (.ofInt significand) exponent with
        | some magnitude => signed magnitude
        | none => .unreadable
      else if significand ≠ 0 ∧ !negative then .unreadable
      else signed (.zero false)

/-- Cut a nonempty run of digits off the text. -/
def readDigits? (text : List Char) : Option (List Char × List Char) :=
  match text.takeWhile isDigit with
  | [] => none
  | digits => some (digits, text.dropWhile isDigit)

/-- Read the digits before the point; a leading zero stands alone. -/
def readWhole? (text : List Char) : Option (List Char × List Char) :=
  match readDigits? text with
  | some ('0' :: _ :: _, _) => none
  | result => result

/-- Read a point and the digits after it, if there is a point. -/
def readFraction? : List Char → Option (Option (List Char) × List Char)
  | '.' :: rest => (readDigits? rest).map fun (digits, rest) => (some digits, rest)
  | text => some (none, text)

/-- Read the sign and the digits of an exponent. -/
def readExponentDigits? : List Char → Option ((Bool × List Char) × List Char)
  | '-' :: rest => (readDigits? rest).map fun (digits, rest) => ((true, digits), rest)
  | '+' :: rest => (readDigits? rest).map fun (digits, rest) => ((false, digits), rest)
  | text => (readDigits? text).map fun (digits, rest) => ((false, digits), rest)

/-- Read an exponent, if there is one. -/
def readExponent? : List Char → Option (Option (Bool × List Char) × List Char)
  | 'e' :: rest | 'E' :: rest =>
    (readExponentDigits? rest).map fun (exponent, rest) => (some exponent, rest)
  | text => some (none, text)

/-- Read a number after its sign. -/
def readMagnitude? (negative : Bool) (text : List Char) :
    Option (NumberLiteral × List Char) := do
  let (whole, rest) ← readWhole? text
  let (fraction, rest) ← readFraction? rest
  let (exponent, rest) ← readExponent? rest
  pure (⟨negative, whole, fraction, exponent⟩, rest)

/-- Read a number. -/
def readNumber? : List Char → Option (Json × List Char)
  | '-' :: rest => (readMagnitude? true rest).map fun (literal, rest) => (literal.value, rest)
  | text => (readMagnitude? false text).map fun (literal, rest) => (literal.value, rest)

/-! ## Strings -/

/-- Read four hexadecimal digits. -/
def readHex? : List Char → Option (Nat × List Char)
  | a :: b :: c :: d :: rest => do
    let a ← hexValue? a
    let b ← hexValue? b
    let c ← hexValue? c
    let d ← hexValue? d
    pure (((a * 16 + b) * 16 + c) * 16 + d, rest)
  | _ => none

/-- One unit of a quoted string: a character, the half of a surrogate pair, or
nothing at the closing quote. -/
inductive StringUnit where
  | char (c : Char)
  | half (code : Nat)
  | close

/-- The character of a one-letter escape. -/
def simpleEscape? : Char → Option Char
  | '"' => some '"'
  | '\\' => some '\\'
  | '/' => some '/'
  | 'b' => some (Char.ofNat 8)
  | 'f' => some (Char.ofNat 12)
  | 'n' => some '\n'
  | 'r' => some '\r'
  | 't' => some '\t'
  | _ => none

/-- Read one unit of a quoted string. -/
def readUnit? : List Char → Option (StringUnit × List Char)
  | '"' :: rest => some (.close, rest)
  | '\\' :: 'u' :: rest => do
    let (code, rest) ← readHex? rest
    if 0xD800 ≤ code ∧ code < 0xE000 then pure (.half code, rest)
    else pure (.char (Char.ofNat code), rest)
  | '\\' :: letter :: rest => (simpleEscape? letter).map fun c => (.char c, rest)
  | c :: rest => if c.toNat < 32 ∨ c = '\\' then none else some (.char c, rest)
  | [] => none

/-- Read the units of a quoted string up to its closing quote. -/
def readUnits? : (fuel : Nat) → List Char → Option (List StringUnit × List Char)
  | 0, _ => none
  | fuel + 1, text => do
    let (unit, rest) ← readUnit? text
    match unit with
    | .close => pure ([], rest)
    | unit =>
      let (units, rest) ← readUnits? fuel rest
      pure (unit :: units, rest)

/-- Join the halves of surrogate pairs; an unpaired half has no character. -/
def joinUnits? : List StringUnit → Option (List Char)
  | [] => some []
  | .char c :: rest => (joinUnits? rest).map (c :: ·)
  | .half high :: .half low :: rest =>
    if high < 0xDC00 ∧ 0xDC00 ≤ low then
      (joinUnits? rest).map
        (Char.ofNat (0x10000 + (high - 0xD800) * 0x400 + (low - 0xDC00)) :: ·)
    else none
  | _ :: _ => none

/-- Read a string after its opening quote; the text inside is missing when it
holds an unpaired half. -/
def readString? (text : List Char) : Option (Option String × List Char) :=
  (readUnits? (text.length + 1) text).map fun (units, rest) =>
    ((joinUnits? units).map String.ofList, rest)

/-! ## Values -/

/-- How many containers may enclose each other. -/
def maxDepth : Nat := 127

/-- Keep a container unless it lies too deep. -/
def atDepth (depth : Nat) (container : Json) : Json :=
  if depth < maxDepth then container else .unreadable

/-- The object with the given members, unreadable if one of the names is. -/
def ofMembers (members : List (Option String × Json)) : Json :=
  match members.mapM fun (name, value) => name.map fun name => (name, value) with
  | some members => .obj members
  | none => .unreadable

mutual

/-- Read a value that `depth` containers enclose. -/
def readValue? : (fuel depth : Nat) → List Char → Option (Json × List Char)
  | 0, _, _ => none
  | fuel + 1, depth, text =>
    match skipBlanks text with
    | '{' :: rest =>
      match skipBlanks rest with
      | '}' :: rest => some (atDepth depth (.obj []), rest)
      | rest =>
        (readMembers? fuel (depth + 1) rest).map fun (members, rest) =>
          (atDepth depth (ofMembers members), rest)
    | '[' :: rest =>
      match skipBlanks rest with
      | ']' :: rest => some (atDepth depth (.arr []), rest)
      | rest =>
        (readItems? fuel (depth + 1) rest).map fun (items, rest) =>
          (atDepth depth (.arr items), rest)
    | '"' :: rest =>
      (readString? rest).map fun (value, rest) =>
        (match value with
          | some value => .str value
          | none => .unreadable, rest)
    | 'n' :: rest => (expect? ['u', 'l', 'l'] rest).map fun rest => (.null, rest)
    | 't' :: rest => (expect? ['r', 'u', 'e'] rest).map fun rest => (.bool true, rest)
    | 'f' :: rest => (expect? ['a', 'l', 's', 'e'] rest).map fun rest => (.bool false, rest)
    | rest => readNumber? rest

/-- Read the items of an array and its closing bracket. -/
def readItems? : (fuel depth : Nat) → List Char → Option (List Json × List Char)
  | 0, _, _ => none
  | fuel + 1, depth, text => do
    let (item, rest) ← readValue? fuel depth text
    match skipBlanks rest with
    | ',' :: rest =>
      let (items, rest) ← readItems? fuel depth rest
      pure (item :: items, rest)
    | ']' :: rest => pure ([item], rest)
    | _ => none

/-- Read the members of an object and its closing brace. -/
def readMembers? : (fuel depth : Nat) → List Char →
    Option (List (Option String × Json) × List Char)
  | 0, _, _ => none
  | fuel + 1, depth, text =>
    match skipBlanks text with
    | '"' :: rest => do
      let (name, rest) ← readString? rest
      let rest ← expect? [':'] (skipBlanks rest)
      let (value, rest) ← readValue? fuel depth rest
      match skipBlanks rest with
      | ',' :: rest =>
        let (members, rest) ← readMembers? fuel depth rest
        pure ((name, value) :: members, rest)
      | '}' :: rest => pure ([(name, value)], rest)
      | _ => none
    | _ => none

end

/-- Read a text that holds exactly one value. -/
def parse? (text : String) : Option Json := do
  let chars := text.toList
  let (value, rest) ← readValue? (2 * chars.length + 2) 0 chars
  if (skipBlanks rest).isEmpty then pure value else none

end Json
end VisualQuery

import VisualQuery.Json.Record
import VisualQuery.Number.Notation

/-!
# Property values

The values the database stores and returns, and the bags of them: attributes
of a node, result rows and parameter bindings.  A value is written as plain
JSON.  Two readers take it back: `ofJson?` follows the shape of the tree, and
`decode?` tries the kinds of value one after another and takes the first that
accepts.
-/

namespace VisualQuery

/-- A value of the database. -/
inductive PropertyValue where
  | null
  | bool (value : Bool)
  | int (value : Int64)
  | float (value : Binary64)
  | string (value : String)
  | list (items : List PropertyValue)
  | map (entries : List (String × PropertyValue))
deriving Inhabited

/-- Values by name: the attributes of a node or a result row by column. -/
abbrev Row := KeyedList PropertyValue

/-- Parameter bindings of a statement. -/
abbrev Parameters := KeyedList PropertyValue

/-- The column that carries the database identity of a node. -/
def internalIdColumn : String := "NEO4JID"

namespace PropertyValue

mutual

/-- Equality of values is decided along their structure. -/
def decideEq : (left right : PropertyValue) → Decidable (left = right)
  | .null, .null => .isTrue rfl
  | .bool left, .bool right =>
    if same : left = right then .isTrue (by rw [same]) else .isFalse (by simpa using same)
  | .int left, .int right =>
    if same : left = right then .isTrue (by rw [same]) else .isFalse (by simpa using same)
  | .float left, .float right =>
    if same : left = right then .isTrue (by rw [same]) else .isFalse (by simpa using same)
  | .string left, .string right =>
    if same : left = right then .isTrue (by rw [same]) else .isFalse (by simpa using same)
  | .list left, .list right =>
    match decideEqItems left right with
    | .isTrue same => .isTrue (by rw [same])
    | .isFalse different => .isFalse (by simpa using different)
  | .map left, .map right =>
    match decideEqEntries left right with
    | .isTrue same => .isTrue (by rw [same])
    | .isFalse different => .isFalse (by simpa using different)
  | .null, .bool _ | .null, .int _ | .null, .float _ | .null, .string _ | .null, .list _
  | .null, .map _ | .bool _, .null | .bool _, .int _ | .bool _, .float _ | .bool _, .string _
  | .bool _, .list _ | .bool _, .map _ | .int _, .null | .int _, .bool _ | .int _, .float _
  | .int _, .string _ | .int _, .list _ | .int _, .map _ | .float _, .null | .float _, .bool _
  | .float _, .int _ | .float _, .string _ | .float _, .list _ | .float _, .map _
  | .string _, .null | .string _, .bool _ | .string _, .int _ | .string _, .float _
  | .string _, .list _ | .string _, .map _ | .list _, .null | .list _, .bool _ | .list _, .int _
  | .list _, .float _ | .list _, .string _ | .list _, .map _ | .map _, .null | .map _, .bool _
  | .map _, .int _ | .map _, .float _ | .map _, .string _ | .map _, .list _ =>
    .isFalse (by simp)

/-- Equality of lists of values. -/
def decideEqItems : (left right : List PropertyValue) → Decidable (left = right)
  | [], [] => .isTrue rfl
  | [], _ :: _ => .isFalse (by simp)
  | _ :: _, [] => .isFalse (by simp)
  | left :: lefts, right :: rights =>
    match decideEq left right, decideEqItems lefts rights with
    | .isTrue head, .isTrue tail => .isTrue (by rw [head, tail])
    | .isFalse head, _ => .isFalse (by simp [head])
    | _, .isFalse tail => .isFalse (by simp [tail])

/-- Equality of lists of named values. -/
def decideEqEntries : (left right : List (String × PropertyValue)) → Decidable (left = right)
  | [], [] => .isTrue rfl
  | [], _ :: _ => .isFalse (by simp)
  | _ :: _, [] => .isFalse (by simp)
  | (leftName, left) :: lefts, (rightName, right) :: rights =>
    if name : leftName = rightName then
      match decideEq left right, decideEqEntries lefts rights with
      | .isTrue head, .isTrue tail => .isTrue (by rw [name, head, tail])
      | .isFalse head, _ => .isFalse (by simp [head])
      | _, .isFalse tail => .isFalse (by simp [tail])
    else .isFalse (by simp [name])

end

instance : DecidableEq PropertyValue := decideEq

/-- The integer a value holds; a whole double counts, clamped to 64 bits. -/
def asInt? : PropertyValue → Option Int64
  | .int value => some value
  | .float value =>
    value.toInt?.map fun whole => Int64.ofInt (max (-signedBound) (min (signedBound - 1) whole))
  | _ => none

/-- The string a value holds. -/
def asString? : PropertyValue → Option String
  | .string value => some value
  | _ => none

/-- The integer a value holds as a count; negative numbers count as none. -/
def asCount? (value : PropertyValue) : Option Nat :=
  value.asInt?.map fun whole => whole.toInt.toNat

mutual

/-- The text shown for a value. -/
def display : PropertyValue → String
  | .null => "null"
  | .bool value => if value then "true" else "false"
  | .int value => toString value.toInt
  | .float value => value.positional
  | .string value => value
  | .list items => ",".intercalate (displayItems items)
  | .map entries => "\x7b" ++ ", ".intercalate (displayEntries entries) ++ "\x7d"

/-- The texts shown for the items of a list. -/
def displayItems : List PropertyValue → List String
  | [] => []
  | item :: rest => display item :: displayItems rest

/-- The texts shown for the entries of a map. -/
def displayEntries : List (String × PropertyValue) → List String
  | [] => []
  | (name, value) :: rest => (name ++ ": " ++ display value) :: displayEntries rest

end

mutual

/-- The JSON form of a value; infinities and non-numbers become null. -/
def toJson : PropertyValue → Json
  | .null => .null
  | .bool value => .bool value
  | .int value => .int value.toInt
  | .float value => if value.isFinite then .float value else .null
  | .string value => .str value
  | .list items => .arr (itemsToJson items)
  | .map entries => .obj (entriesToJson entries)

/-- JSON forms of the items of a list. -/
def itemsToJson : List PropertyValue → List Json
  | [] => []
  | item :: rest => toJson item :: itemsToJson rest

/-- JSON forms of the entries of a map. -/
def entriesToJson : List (String × PropertyValue) → List (String × Json)
  | [] => []
  | (name, value) :: rest => (name, toJson value) :: entriesToJson rest

end

/-- An integer as a value: exact when it fits 64 signed bits, the nearest
double otherwise. -/
def ofInt (value : Int) : PropertyValue :=
  if FitsSigned value then .int (Int64.ofInt value)
  else .float (.ofInt value)

mutual

/-- Read a value along the shape of the tree. -/
def ofJson? : Json → Option PropertyValue
  | .null => some .null
  | .bool value => some (.bool value)
  | .int value => some (ofInt value)
  | .float value => some (.float value)
  | .str value => some (.string value)
  | .arr items => (itemsOfJson? items).map .list
  | .obj members => (entriesOfJson? members).map fun entries => .map (KeyedList.ofList entries)
  | .unreadable => none

/-- Read the items of an array. -/
def itemsOfJson? : List Json → Option (List PropertyValue)
  | [] => some []
  | item :: rest => do
    let value ← ofJson? item
    let values ← itemsOfJson? rest
    pure (value :: values)

/-- Read the members of an object. -/
def entriesOfJson? : List (String × Json) → Option (List (String × PropertyValue))
  | [] => some []
  | (name, item) :: rest => do
    let value ← ofJson? item
    let values ← entriesOfJson? rest
    pure ((name, value) :: values)

end

/-- The integer written as such that fits 64 signed bits. -/
def wholeNumber? : Json → Option Int64
  | .int value =>
    if FitsSigned value then some (Int64.ofInt value) else none
  | _ => none

/-- Any number as a double. -/
def double? : Json → Option Binary64
  | .int value => some (.ofInt value)
  | .float value => some value
  | _ => none

/-- Read a value that holds no other value, by the first kind that accepts it
in the order null, truth value, integer, double, string. -/
def scalar? (value : Json) : Option PropertyValue :=
  (match value with | .null => some .null | _ => none)
    <|> (Json.bool? value).map .bool
    <|> (wholeNumber? value).map .int
    <|> (double? value).map .float
    <|> (Json.str? value).map .string

mutual

/-- Read a value by the first kind that accepts it; lists and maps come after
the scalars. -/
def decode? : Json → Option PropertyValue
  | .arr items => scalar? (.arr items) <|> (decodeItems? items).map .list
  | .obj members =>
    scalar? (.obj members)
      <|> (decodeEntries? members).map fun entries => .map (KeyedList.ofList entries)
  | value => scalar? value

/-- Read the items of an array. -/
def decodeItems? : List Json → Option (List PropertyValue)
  | [] => some []
  | item :: rest => do
    let value ← decode? item
    let values ← decodeItems? rest
    pure (value :: values)

/-- Read the members of an object. -/
def decodeEntries? : List (String × Json) → Option (List (String × PropertyValue))
  | [] => some []
  | (name, item) :: rest => do
    let value ← decode? item
    let values ← decodeEntries? rest
    pure ((name, value) :: values)

end

/-- Read a bag of values, the last of equal names winning. -/
def row? : Json → Option Row
  | .obj members => (decodeEntries? members).map KeyedList.ofList
  | _ => none

end PropertyValue

namespace Row

/-- The JSON form of a bag of values. -/
def toJson (row : Row) : Json := .obj (PropertyValue.entriesToJson row)

end Row
end VisualQuery

import VisualQuery.KeyedList
import VisualQuery.Number.Binary64
import VisualQuery.Number.Range

/-!
# JSON trees

A tree keeps object members as written, in order and with repetitions.  Its
canonical form sorts the members of every object and keeps the last of equal
names.  Text may hold pieces that follow the grammar and denote nothing, such
as a number too large for a double; they stay in the tree as `unreadable`,
since they do no harm where they are skipped.
-/

namespace VisualQuery

/-- A JSON value. -/
inductive Json where
  | null
  | bool (value : Bool)
  /-- A number written without fraction and exponent that fits 64 bits. -/
  | int (value : Int)
  /-- Any other number. -/
  | float (value : Binary64)
  | str (value : String)
  | arr (items : List Json)
  | obj (members : List (String × Json))
  /-- A well-formed piece of text without a value. -/
  | unreadable
deriving Inhabited

namespace Json

mutual

/-- Sort the members of every object, the last of equal names winning. -/
def canonical : Json → Json
  | .arr items => .arr (canonicalItems items)
  | .obj members => .obj (KeyedList.ofList (canonicalMembers members))
  | value => value

/-- Canonical forms of the items of an array. -/
def canonicalItems : List Json → List Json
  | [] => []
  | item :: rest => canonical item :: canonicalItems rest

/-- Canonical forms of the values of the members of an object. -/
def canonicalMembers : List (String × Json) → List (String × Json)
  | [] => []
  | (name, value) :: rest => (name, canonical value) :: canonicalMembers rest

end

mutual

/-- Whether every piece of the tree has a value. -/
def isReadable : Json → Bool
  | .unreadable => false
  | .arr items => readableItems items
  | .obj members => readableMembers members
  | _ => true

/-- Whether every item of an array is readable. -/
def readableItems : List Json → Bool
  | [] => true
  | item :: rest => isReadable item && readableItems rest

/-- Whether every member of an object is readable. -/
def readableMembers : List (String × Json) → Bool
  | [] => true
  | (_, value) :: rest => isReadable value && readableMembers rest

end

/-- An integer that fits a signed or an unsigned 64-bit word, the nearest
double otherwise. -/
def ofInt (value : Int) : Json :=
  if FitsSigned value ∨ FitsUnsigned value then .int value else .float (.ofInt value)

/-- A natural number as a value. -/
def nat (value : Nat) : Json := .int value

/-- Strings as an array. -/
def strings (items : List String) : Json := .arr (items.map .str)

/-- The value or null. -/
def orNull {α : Type} (encode : α → Json) : Option α → Json
  | some value => encode value
  | none => .null

@[simp] theorem canonicalItems_eq_map (items : List Json) :
    canonicalItems items = items.map canonical := by
  induction items with
  | nil => rfl
  | cons item rest inductionHypothesis => simp [canonicalItems, inductionHypothesis]

@[simp] theorem canonicalMembers_eq_map (members : List (String × Json)) :
    canonicalMembers members =
      members.map fun entry => (entry.1, canonical entry.2) := by
  induction members with
  | nil => rfl
  | cons entry rest inductionHypothesis =>
      obtain ⟨name, value⟩ := entry
      simp [canonicalMembers, inductionHypothesis]

end Json
end VisualQuery

import VisualQuery.Json.Basic

/-!
# Reading records from JSON objects

A record is read member by member.  A required member must be there, an
optional one may be missing or null, a defaulted one may be missing only.  A
member that is written twice is an error, a member without a field is skipped
unless the record is closed.  Some records may also be written as the list of
their fields in order.
-/

namespace VisualQuery
namespace Json

/-- Members of an object. -/
abbrev Members := List (String × Json)

/-- The members of an object; nothing else has members. -/
def members? : Json → Option Members
  | .obj members => some members
  | _ => none

/-- The members of an object, or the items of an array under the names of the
fields of a record; items past the last field are ignored. -/
def fields? (names : List String) : Json → Option Members
  | .obj members => some members
  | .arr items => some (names.zip items)
  | _ => none

/-- The members of an object, or the items of an array under the names of the
fields of a record; there may be fewer items than fields, but no more. -/
def record? (names : List String) : Json → Option Members
  | .obj members => some members
  | .arr items => if items.length ≤ names.length then some (names.zip items) else none
  | _ => none

/-- The value of a member, `none` inside when it is missing; no result when it
is repeated. -/
def member? (name : String) (members : Members) : Option (Option Json) :=
  match members.filter fun entry => entry.1 = name with
  | [] => some none
  | [(_, value)] => some (some value)
  | _ => none

/-- Read a member that must be there. -/
def required? {α : Type} (decode : Json → Option α) (name : String) (members : Members) :
    Option α := do
  let value ← (← member? name members)
  decode value

/-- Read a member that may be missing or null. -/
def optional? {α : Type} (decode : Json → Option α) (name : String) (members : Members) :
    Option (Option α) := do
  match ← member? name members with
  | none | some .null => pure none
  | some value => (decode value).map some

/-- Read a member that may be missing. -/
def defaulted? {α : Type} (default : α) (decode : Json → Option α) (name : String)
    (members : Members) : Option α := do
  match ← member? name members with
  | none => pure default
  | some value => decode value

/-- Whether every member has one of the given names. -/
def isClosed (names : List String) (members : Members) : Bool :=
  members.all fun entry => names.contains entry.1

/-- Read a truth value. -/
def bool? : Json → Option Bool
  | .bool value => some value
  | _ => none

/-- Read a string. -/
def str? : Json → Option String
  | .str value => some value
  | _ => none

/-- Read an unsigned 64-bit number. -/
def nat? : Json → Option Nat
  | .int value => if FitsUnsigned value then some value.toNat else none
  | _ => none

/-- Read a list. -/
def list? {α : Type} (decode : Json → Option α) : Json → Option (List α)
  | .arr items => items.mapM decode
  | _ => none

/-- Read any value, in canonical form. -/
def any? (value : Json) : Option Json :=
  if value.isReadable then some value.canonical else none

/-- The last member of an object with a name. -/
def get? (name : String) : Json → Option Json
  | .obj members => (members.reverse.find? fun entry => entry.1 = name).map Prod.snd
  | _ => none

/-! ## Size of trees -/

mutual

/-- The number of values in a tree. -/
def weight : Json → Nat
  | .arr items => itemsWeight items + 1
  | .obj members => membersWeight members + 1
  | _ => 1

/-- The number of values in the items of an array. -/
def itemsWeight : List Json → Nat
  | [] => 0
  | item :: rest => weight item + itemsWeight rest

/-- The number of values in the members of an object. -/
def membersWeight : List (String × Json) → Nat
  | [] => 0
  | (_, value) :: rest => weight value + membersWeight rest

end

/-- Every value counts. -/
theorem weight_pos (value : Json) : 0 < weight value := by
  cases value <;> simp [weight]

/-- A member weighs no more than all members. -/
theorem weight_le_of_mem
    {name : String}
    {value : Json}
    {members : Members}
    (member : (name, value) ∈ members) :
    weight value ≤ membersWeight members := by
  induction members with
  | nil => simp at member
  | cons entry rest inductionHypothesis =>
      obtain ⟨other, stored⟩ := entry
      simp only [membersWeight]
      rcases List.mem_cons.1 member with same | later
      · simp only [Prod.mk.injEq] at same
        rw [same.2]
        omega
      · have smaller := inductionHypothesis later
        omega

/-- A member that is read weighs no more than all members. -/
theorem weight_le_of_member?
    {name : String}
    {members : Members}
    {value : Json}
    (found : member? name members = some (some value)) :
    weight value ≤ membersWeight members := by
  unfold member? at found
  split at found
  · simp at found
  · rename_i foundName foundValue single
    simp only [Option.some.injEq] at found
    subst found
    have member : (foundName, foundValue) ∈ members :=
      (List.mem_filter.1 (by rw [single]; simp)).1
    exact weight_le_of_mem member
  · simp at found

/-- Items under names weigh no more than all items. -/
theorem membersWeight_zip_le
    (names : List String)
    (items : List Json) :
    membersWeight (names.zip items) ≤ itemsWeight items := by
  induction names generalizing items with
  | nil => simp [membersWeight]
  | cons name names inductionHypothesis =>
      cases items with
      | nil => simp [membersWeight]
      | cons item rest =>
          have smaller := inductionHypothesis rest
          simp only [List.zip_cons_cons, membersWeight, itemsWeight]
          omega

/-- The fields of a record weigh less than the tree it is written as. -/
theorem membersWeight_lt_of_fields?
    {names : List String}
    {value : Json}
    {members : Members}
    (found : fields? names value = some members) :
    membersWeight members < weight value := by
  cases value <;> simp only [fields?, Option.some.injEq, reduceCtorEq] at found
  · subst found
    have smaller := membersWeight_zip_le names ‹_›
    simp only [weight]
    omega
  · subst found
    simp [weight]

end Json
end VisualQuery

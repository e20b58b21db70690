import Mathlib.Data.List.Forall2
import VisualQuery.Json.Record
import VisualQuery.Proofs.KeyedList

/-!
# Trees and their canonical forms

Statements about trees are proved along arrays and objects.  The canonical form of
a tree is its own canonical form, so a tree that was read as it stands is read
again as it stands.  A tree in range has no numbers but integers of 64 bits and finite
doubles.
-/

namespace VisualQuery

/-- A named value is smaller than the list it stands in. -/
theorem sizeOf_snd_lt_of_mem
    {α : Type}
    [SizeOf α]
    {entries : List (String × α)}
    {entry : String × α}
    (listed : entry ∈ entries) :
    sizeOf entry.2 < sizeOf entries := by
  have inList := List.sizeOf_lt_of_mem listed
  obtain ⟨name, value⟩ := entry
  simp only [Prod.mk.sizeOf_spec] at inList
  simp only
  omega

namespace Json

/-! ## Induction -/

/-- What holds of an array if it holds of its items, of an object if it holds of the
values of its members, and of everything else, holds of every tree. -/
@[elab_as_elim]
theorem induction {motive : Json → Prop}
    (null : motive .null)
    (bool : ∀ value, motive (.bool value))
    (int : ∀ value, motive (.int value))
    (float : ∀ value, motive (.float value))
    (str : ∀ value, motive (.str value))
    (arr : ∀ items, (∀ item ∈ items, motive item) → motive (.arr items))
    (obj : ∀ members : Members, (∀ member ∈ members, motive member.2) → motive (.obj members))
    (unreadable : motive .unreadable) :
    ∀ tree, motive tree
  | .null => null
  | .bool value => bool value
  | .int value => int value
  | .float value => float value
  | .str value => str value
  | .arr items =>
      arr items fun item _ => induction null bool int float str arr obj unreadable item
  | .obj members =>
      obj members fun member _ => induction null bool int float str arr obj unreadable member.2
  | .unreadable => unreadable
termination_by tree => sizeOf tree
decreasing_by
  · decreasing_tactic
  · rename_i listed
    have smaller := sizeOf_snd_lt_of_mem listed
    simp only [Json.obj.sizeOf_spec]
    omega

/-! ## Equality -/

mutual

/-- Whether two trees are the same, with all members in the same order. -/
def same : Json → Json → Bool
  | .null, .null | .unreadable, .unreadable => true
  | .bool left, .bool right => left = right
  | .int left, .int right => left = right
  | .float left, .float right => left = right
  | .str left, .str right => left = right
  | .arr left, .arr right => sameItems left right
  | .obj left, .obj right => sameMembers left right
  | _, _ => false

/-- Whether the items of two arrays are the same. -/
def sameItems : List Json → List Json → Bool
  | [], [] => true
  | left :: lefts, right :: rights => same left right && sameItems lefts rights
  | _, _ => false

/-- Whether the members of two objects are the same. -/
def sameMembers : List (String × Json) → List (String × Json) → Bool
  | [], [] => true
  | (name, left) :: lefts, (other, right) :: rights =>
    name = other && same left right && sameMembers lefts rights
  | _, _ => false

end

theorem sameItems_iff
    {items : List Json}
    (each : ∀ item ∈ items, ∀ other, same item other = true ↔ item = other) :
    ∀ others, sameItems items others = true ↔ items = others := by
  induction items with
  | nil => intro others; cases others <;> simp [sameItems]
  | cons item rest inductionHypothesis =>
      obtain ⟨first, later⟩ := List.forall_mem_cons.1 each
      intro others
      cases others <;> simp [sameItems, first, inductionHypothesis later]

theorem sameMembers_iff
    {members : Members}
    (each : ∀ member ∈ members, ∀ other, same member.2 other = true ↔ member.2 = other) :
    ∀ others, sameMembers members others = true ↔ members = others := by
  induction members with
  | nil => intro others; cases others <;> simp [sameMembers]
  | cons member rest inductionHypothesis =>
      obtain ⟨first, later⟩ := List.forall_mem_cons.1 each
      obtain ⟨name, value⟩ := member
      intro others
      cases others <;> simp [sameMembers, first, inductionHypothesis later, Prod.ext_iff]

theorem same_iff {left : Json} : ∀ right, same left right = true ↔ left = right := by
  induction left using induction with
  | arr items inductionHypothesis =>
      intro right
      cases right <;> simp [same, sameItems_iff inductionHypothesis]
  | obj members inductionHypothesis =>
      intro right
      cases right <;> simp [same, sameMembers_iff inductionHypothesis]
  | null | bool | int | float | str | unreadable =>
      intro right
      cases right <;> simp [same]

instance : DecidableEq Json := fun _ right => decidable_of_iff _ (same_iff right)

/-! ## Readable trees -/

theorem isReadable_arr (items : List Json) :
    isReadable (.arr items) = items.all isReadable := by
  have along : readableItems items = items.all isReadable := by
    induction items with
    | nil => rfl
    | cons item rest inductionHypothesis =>
        rw [readableItems, inductionHypothesis, List.all_cons]
  rw [isReadable, along]

theorem isReadable_obj (members : Members) :
    isReadable (.obj members) = members.all fun member => member.2.isReadable := by
  have along : readableMembers members = members.all fun member => member.2.isReadable := by
    induction members with
    | nil => rfl
    | cons member rest inductionHypothesis =>
        rw [readableMembers, inductionHypothesis, List.all_cons]
  rw [isReadable, along]

/-! ## Canonical forms -/

theorem canonical_arr (items : List Json) :
    canonical (.arr items) = .arr (items.map canonical) := by
  rw [canonical, canonicalItems_eq_map]

theorem canonical_obj (members : Members) :
    canonical (.obj members) =
      .obj (KeyedList.ofList (members.map fun member => (member.1, canonical member.2))) := by
  rw [canonical, canonicalMembers_eq_map]

/-- A canonical form is canonical. -/
theorem canonical_canonical (tree : Json) : tree.canonical.canonical = tree.canonical := by
  induction tree using induction with
  | arr items inductionHypothesis =>
      rw [canonical_arr, canonical_arr, List.map_map]
      exact congrArg Json.arr (List.map_congr_left inductionHypothesis)
  | obj members inductionHypothesis =>
      rw [canonical_obj, canonical_obj]
      have settled : ∀ member ∈ KeyedList.ofList
          (members.map fun member => (member.1, canonical member.2)),
          (member.1, canonical member.2) = member := by
        intro member collected
        obtain ⟨source, listed, rfl⟩ := List.mem_map.1 (KeyedList.mem_of_mem_ofList collected)
        rw [inductionHypothesis source listed]
      rw [List.map_congr_left settled, List.map_id', (KeyedList.sorted_ofList _).ofList_eq]
  | null | bool | int | float | str | unreadable => rfl

/-- The canonical form of a readable tree is readable. -/
theorem isReadable_canonical
    {tree : Json}
    (readable : tree.isReadable = true) :
    tree.canonical.isReadable = true := by
  induction tree using induction with
  | arr items inductionHypothesis =>
      rw [isReadable_arr, List.all_eq_true] at readable
      rw [canonical_arr, isReadable_arr, List.all_map, List.all_eq_true]
      exact fun item listed => inductionHypothesis item listed (readable item listed)
  | obj members inductionHypothesis =>
      rw [isReadable_obj, List.all_eq_true] at readable
      rw [canonical_obj, isReadable_obj, List.all_eq_true]
      intro member collected
      obtain ⟨source, listed, rfl⟩ := List.mem_map.1 (KeyedList.mem_of_mem_ofList collected)
      exact inductionHypothesis source listed (readable source listed)
  | null | bool | int | float | str | unreadable => exact readable

/-- A tree that is read as it stands is readable and canonical. -/
theorem any?_eq_self_iff {tree : Json} :
    any? tree = some tree ↔ tree.isReadable = true ∧ tree.canonical = tree := by
  simp [any?]

/-- Only null is read as null. -/
theorem any?_eq_null_iff {tree : Json} : any? tree = some .null ↔ tree = .null := by
  cases tree <;> simp [any?, isReadable, canonical]

/-- What was read once is read as it stands. -/
theorem any?_of_any?
    {tree result : Json}
    (read : any? tree = some result) :
    any? result = some result := by
  rw [any?] at read
  split at read
  · rename_i readable
    obtain rfl := Option.some.inj read
    exact any?_eq_self_iff.2 ⟨isReadable_canonical readable, canonical_canonical tree⟩
  · cases read

/-! ## Numbers in a tree -/

/-- Every number of the tree is an integer of 64 bits or a finite double. -/
inductive InRange : Json → Prop
  | null : InRange .null
  | bool (value : Bool) : InRange (.bool value)
  | int {value : Int} : FitsSigned value ∨ FitsUnsigned value → InRange (.int value)
  | float {value : Binary64} : value.isFinite = true → InRange (.float value)
  | str (value : String) : InRange (.str value)
  | arr {items : List Json} : (∀ item ∈ items, InRange item) → InRange (.arr items)
  | obj {members : Members} : (∀ member ∈ members, InRange member.2) → InRange (.obj members)
  | unreadable : InRange .unreadable

theorem inRange_int_iff {value : Int} :
    InRange (.int value) ↔ FitsSigned value ∨ FitsUnsigned value :=
  ⟨fun (.int fits) => fits, .int⟩

theorem inRange_float_iff {value : Binary64} :
    InRange (.float value) ↔ value.isFinite = true :=
  ⟨fun (.float finite) => finite, .float⟩

theorem inRange_arr_iff {items : List Json} :
    InRange (.arr items) ↔ ∀ item ∈ items, InRange item :=
  ⟨fun (.arr each) => each, .arr⟩

theorem inRange_obj_iff {members : Members} :
    InRange (.obj members) ↔ ∀ member ∈ members, InRange member.2 :=
  ⟨fun (.obj each) => each, .obj⟩

end Json
end VisualQuery

import VisualQuery.PropertyValue
import VisualQuery.Proofs.Json.Reading
import VisualQuery.Proofs.Number.Finite

/-!
# Values written as plain JSON

A tree is read along its shape or by trying one kind of value after another, and
both ways give the same value: exactly the readable trees have one.  A written value
is read back by both ways exactly if its doubles are finite and its maps are sorted,
which collected maps always are.  An infinite double is written null.
-/

namespace VisualQuery
namespace PropertyValue

/-! ## Induction -/

/-- What holds of a list if it holds of its items, of a map if it holds of the values
of its entries, and of everything else, holds of every value. -/
@[elab_as_elim]
theorem induction {motive : PropertyValue → Prop}
    (null : motive .null)
    (bool : ∀ value, motive (.bool value))
    (int : ∀ value, motive (.int value))
    (float : ∀ value, motive (.float value))
    (string : ∀ value, motive (.string value))
    (list : ∀ items, (∀ item ∈ items, motive item) → motive (.list items))
    (map : ∀ entries : Row, (∀ entry ∈ entries, motive entry.2) → motive (.map entries)) :
    ∀ value, motive value
  | .null => null
  | .bool value => bool value
  | .int value => int value
  | .float value => float value
  | .string value => string value
  | .list items => list items fun item _ => induction null bool int float string list map item
  | .map entries =>
      map entries fun entry _ => induction null bool int float string list map entry.2
termination_by value => sizeOf value
decreasing_by
  · decreasing_tactic
  · rename_i listed
    have smaller := sizeOf_snd_lt_of_mem listed
    simp only [PropertyValue.map.sizeOf_spec]
    omega

/-! ## Writing -/

theorem itemsToJson_eq_map (items : List PropertyValue) :
    itemsToJson items = items.map toJson := by
  induction items with
  | nil => rfl
  | cons item rest inductionHypothesis =>
      rw [itemsToJson, inductionHypothesis, List.map_cons]

theorem entriesToJson_eq_mapValues (entries : Row) :
    entriesToJson entries = KeyedList.mapValues toJson entries := by
  induction entries with
  | nil => rfl
  | cons entry rest inductionHypothesis =>
      rw [entriesToJson, inductionHypothesis, KeyedList.mapValues, KeyedList.mapValues,
        List.map_cons]

theorem toJson_list (items : List PropertyValue) :
    toJson (.list items) = .arr (items.map toJson) := by
  rw [toJson, itemsToJson_eq_map]

theorem toJson_map (entries : Row) :
    toJson (.map entries) = .obj (KeyedList.mapValues toJson entries) := by
  rw [toJson, entriesToJson_eq_mapValues]

/-! ## Reading -/

/-- Read the value of a member and keep its name. -/
def readPair? (read : Json → Option PropertyValue) (member : String × Json) :
    Option (String × PropertyValue) :=
  (read member.2).map (Prod.mk member.1)

theorem readPair?_eq_some_iff
    {read : Json → Option PropertyValue}
    {member : String × Json}
    {entry : String × PropertyValue} :
    readPair? read member = some entry ↔ member.1 = entry.1 ∧ read member.2 = some entry.2 := by
  obtain ⟨name, value⟩ := entry
  simp only [readPair?, Option.map_eq_some_iff, Prod.mk.injEq]
  grind

/-- Read the members of an object into a map, the last of equal names winning. -/
def map? (read : Json → Option PropertyValue) (members : Json.Members) : Option Row :=
  (members.mapM (readPair? read)).map KeyedList.ofList

theorem itemsOfJson?_eq_mapM (items : List Json) :
    itemsOfJson? items = items.mapM ofJson? := by
  induction items with
  | nil => rfl
  | cons item rest inductionHypothesis =>
      rw [itemsOfJson?, inductionHypothesis, List.mapM_cons]

theorem decodeItems?_eq_mapM (items : List Json) :
    decodeItems? items = items.mapM decode? := by
  induction items with
  | nil => rfl
  | cons item rest inductionHypothesis =>
      rw [decodeItems?, inductionHypothesis, List.mapM_cons]

theorem entriesOfJson?_eq_mapM (members : Json.Members) :
    entriesOfJson? members = members.mapM (readPair? ofJson?) := by
  induction members with
  | nil => rfl
  | cons member rest inductionHypothesis =>
      obtain ⟨name, item⟩ := member
      rw [entriesOfJson?, inductionHypothesis, List.mapM_cons, readPair?]
      cases ofJson? item <;> rfl

theorem decodeEntries?_eq_mapM (members : Json.Members) :
    decodeEntries? members = members.mapM (readPair? decode?) := by
  induction members with
  | nil => rfl
  | cons member rest inductionHypothesis =>
      obtain ⟨name, item⟩ := member
      rw [decodeEntries?, inductionHypothesis, List.mapM_cons, readPair?]
      cases decode? item <;> rfl

theorem ofJson?_arr (items : List Json) :
    ofJson? (.arr items) = (items.mapM ofJson?).map .list := by
  rw [ofJson?, itemsOfJson?_eq_mapM]

theorem ofJson?_obj (members : Json.Members) :
    ofJson? (.obj members) = (map? ofJson? members).map .map := by
  rw [ofJson?, entriesOfJson?_eq_mapM, map?, Option.map_map]
  rfl

/-- Arrays are not read as scalars. -/
theorem decode?_arr (items : List Json) :
    decode? (.arr items) = (items.mapM decode?).map .list := by
  rw [decode?, decodeItems?_eq_mapM]
  rfl

/-- Objects are read neither as scalars nor as lists. -/
theorem decode?_obj (members : Json.Members) :
    decode? (.obj members) = (map? decode? members).map .map := by
  rw [decode?, decodeEntries?_eq_mapM, map?, Option.map_map]
  rfl

theorem row?_obj (members : Json.Members) : row? (.obj members) = map? decode? members := by
  rw [row?, decodeEntries?_eq_mapM, map?]

/-- An integer is tried as an integer before it is tried as a double. -/
theorem decode?_int (value : Int) : decode? (.int value) = some (ofInt value) := by
  by_cases fits : FitsSigned value <;>
    simp [decode?, scalar?, Json.bool?, wholeNumber?, double?, ofInt, fits]

/-- Both ways of reading agree. -/
theorem decode?_eq_ofJson? (tree : Json) : decode? tree = ofJson? tree := by
  induction tree using Json.induction with
  | int value => rw [decode?_int, ofJson?]
  | arr items inductionHypothesis =>
      rw [decode?_arr, ofJson?_arr, Json.mapM_congr inductionHypothesis]
  | obj members inductionHypothesis =>
      have same : ∀ member ∈ members, readPair? decode? member = readPair? ofJson? member :=
        fun member listed => by rw [readPair?, readPair?, inductionHypothesis member listed]
      rw [decode?_obj, ofJson?_obj, map?, map?, Json.mapM_congr same]
  | null | bool | float | str | unreadable => rfl

theorem isSome_readPair?
    (read : Json → Option PropertyValue)
    (member : String × Json) :
    (readPair? read member).isSome = (read member.2).isSome :=
  Option.isSome_map

/-- Exactly the readable trees have a value. -/
theorem isSome_ofJson? (tree : Json) : (ofJson? tree).isSome = tree.isReadable := by
  induction tree using Json.induction with
  | arr items inductionHypothesis =>
      rw [ofJson?_arr, Option.isSome_map, Json.isSome_mapM, Json.isReadable_arr,
        Bool.eq_iff_iff, List.all_eq_true, List.all_eq_true]
      exact forall₂_congr fun item listed => by rw [inductionHypothesis item listed]
  | obj members inductionHypothesis =>
      rw [ofJson?_obj, Option.isSome_map, map?, Option.isSome_map, Json.isSome_mapM,
        Json.isReadable_obj, Bool.eq_iff_iff, List.all_eq_true, List.all_eq_true]
      exact forall₂_congr fun member listed => by
        rw [isSome_readPair?, inductionHypothesis member listed]
  | null | bool | int | float | str | unreadable => rfl

/-! ## Values that text can hold -/

/-- The doubles of the value are finite, and the entries of its maps are sorted by
different names. -/
inductive Representable : PropertyValue → Prop
  | null : Representable .null
  | bool (value : Bool) : Representable (.bool value)
  | int (value : Int64) : Representable (.int value)
  | float {value : Binary64} : value.isFinite = true → Representable (.float value)
  | string (value : String) : Representable (.string value)
  | list {items : List PropertyValue} :
      (∀ item ∈ items, Representable item) → Representable (.list items)
  | map {entries : Row} :
      KeyedList.Sorted entries → (∀ entry ∈ entries, Representable entry.2) →
        Representable (.map entries)

theorem representable_float_iff {value : Binary64} :
    Representable (.float value) ↔ value.isFinite = true :=
  ⟨fun (.float finite) => finite, .float⟩

theorem representable_list_iff {items : List PropertyValue} :
    Representable (.list items) ↔ ∀ item ∈ items, Representable item :=
  ⟨fun (.list each) => each, .list⟩

theorem representable_map_iff {entries : Row} :
    Representable (.map entries) ↔
      KeyedList.Sorted entries ∧ ∀ entry ∈ entries, Representable entry.2 :=
  ⟨fun (.map sorted each) => ⟨sorted, each⟩, fun ⟨sorted, each⟩ => .map sorted each⟩

/-- Reading members keeps their names. -/
theorem names_of_mapM_readPair?
    {read : Json → Option PropertyValue}
    {members : Json.Members}
    {entries : List (String × PropertyValue)}
    (decoded : members.mapM (readPair? read) = some entries) :
    members.map Prod.fst = entries.map Prod.fst := by
  have paired : List.Forall₂ (fun member entry => member.1 = entry.1) members entries :=
    (Json.mapM_eq_some_iff.1 decoded).imp fun _ _ same => (readPair?_eq_some_iff.1 same).1
  rw [← List.forall₂_eq_eq_eq, List.forall₂_map_left_iff, List.forall₂_map_right_iff]
  exact paired

/-- A written map is read back exactly if it is sorted and its values are read
back. -/
theorem map?_mapValues_iff
    {read : Json → Option PropertyValue}
    {entries : Row} :
    map? read (KeyedList.mapValues toJson entries) = some entries ↔
      KeyedList.Sorted entries ∧ ∀ entry ∈ entries, read entry.2.toJson = some entry.2 := by
  have each :
      (KeyedList.mapValues toJson entries).mapM (readPair? read) = some entries ↔
        ∀ entry ∈ entries, read entry.2.toJson = some entry.2 := by
    rw [KeyedList.mapValues, Json.mapM_map_eq_some_iff]
    simp only [readPair?_eq_some_iff, true_and]
  rw [← each, map?, Option.map_eq_some_iff]
  constructor
  · rintro ⟨pairs, pairsRead, collected⟩
    have sorted : KeyedList.Sorted entries := collected ▸ KeyedList.sorted_ofList pairs
    -- The names that are read are those of the entries, so nothing is reordered.
    have pairsSorted : KeyedList.Sorted pairs := by
      have names := names_of_mapM_readPair? pairsRead
      rw [KeyedList.mapValues, List.map_map] at names
      exact List.pairwise_map.1 (names ▸ List.pairwise_map.2 sorted)
    rw [pairsSorted.ofList_eq] at collected
    exact ⟨sorted, collected ▸ pairsRead⟩
  · rintro ⟨sorted, entriesRead⟩
    exact ⟨entries, entriesRead, sorted.ofList_eq⟩

/-- An integer of 64 bits stays an integer. -/
theorem ofInt_toInt (value : Int64) : ofInt value.toInt = .int value := by
  have fits : FitsSigned value.toInt := by
    rw [fitsSigned_iff]
    exact ⟨Int64.le_toInt value, Int64.toInt_lt value⟩
  rw [ofInt, if_pos fits, Int64.ofInt_toInt]

/-- A written value is read back exactly if text can hold it. -/
theorem ofJson?_toJson_iff (value : PropertyValue) :
    ofJson? value.toJson = some value ↔ value.Representable := by
  induction value using induction with
  | null => exact iff_of_true rfl .null
  | bool value => exact iff_of_true rfl (.bool value)
  | int value =>
      refine iff_of_true ?_ (.int value)
      rw [toJson, ofJson?, ofInt_toInt]
  | float value =>
      rw [representable_float_iff, toJson]
      split
      · rename_i finite
        exact iff_of_true rfl finite
      · rename_i notFinite
        exact iff_of_false nofun notFinite
  | string value => exact iff_of_true rfl (.string value)
  | list items inductionHypothesis =>
      rw [toJson_list, ofJson?_arr, representable_list_iff,
        ← forall₂_congr inductionHypothesis, ← Json.mapM_map_eq_some_iff]
      simp
  | map entries inductionHypothesis =>
      rw [toJson_map, ofJson?_obj, representable_map_iff,
        ← forall₂_congr inductionHypothesis, ← map?_mapValues_iff]
      simp

theorem decode?_toJson_iff (value : PropertyValue) :
    decode? value.toJson = some value ↔ value.Representable := by
  rw [decode?_eq_ofJson?, ofJson?_toJson_iff]

/-- Written values are read back one by one. -/
theorem list?_itemsToJson_iff {items : List PropertyValue} :
    Json.list? decode? (.arr (itemsToJson items)) = some items ↔
      ∀ item ∈ items, item.Representable := by
  rw [itemsToJson_eq_map, Json.list?_map_eq_some_iff]
  exact forall₂_congr fun item _ => decode?_toJson_iff item

/-- A written bag of values is read back exactly if text can hold it as a map. -/
theorem row?_toJson_iff {row : Row} :
    row? row.toJson = some row ↔ (PropertyValue.map row).Representable := by
  rw [Row.toJson, entriesToJson_eq_mapValues, row?_obj, map?_mapValues_iff,
    representable_map_iff]
  exact and_congr_right fun _ => forall₂_congr fun entry _ => decode?_toJson_iff entry.2

/-- What is read from a tree is representable as long as the numbers of the tree
are. -/
theorem Representable.of_ofJson?
    {tree : Json}
    {value : PropertyValue}
    (inRange : tree.InRange)
    (read : ofJson? tree = some value) :
    value.Representable := by
  induction tree using Json.induction generalizing value with
  | null =>
      obtain rfl := Option.some.inj read
      exact .null
  | bool held =>
      obtain rfl := Option.some.inj read
      exact .bool held
  | int whole =>
      obtain rfl := Option.some.inj read
      rw [ofInt]
      split
      · exact .int _
      · exact .float (Binary64.isFinite_ofInt_of_fits (Json.inRange_int_iff.1 inRange))
  | float number =>
      obtain rfl := Option.some.inj read
      exact .float (Json.inRange_float_iff.1 inRange)
  | str text =>
      obtain rfl := Option.some.inj read
      exact .string text
  | arr items inductionHypothesis =>
      rw [ofJson?_arr] at read
      obtain ⟨values, valuesRead, rfl⟩ := Option.map_eq_some_iff.1 read
      refine .list fun value member => ?_
      obtain ⟨item, listed, itemRead⟩ := Json.exists_of_mem_mapM valuesRead member
      exact inductionHypothesis item listed (Json.inRange_arr_iff.1 inRange item listed) itemRead
  | obj members inductionHypothesis =>
      rw [ofJson?_obj, map?, Option.map_map] at read
      obtain ⟨pairs, pairsRead, rfl⟩ := Option.map_eq_some_iff.1 read
      refine .map (KeyedList.sorted_ofList pairs) fun entry collected => ?_
      obtain ⟨member, listed, memberRead⟩ :=
        Json.exists_of_mem_mapM pairsRead (KeyedList.mem_of_mem_ofList collected)
      exact inductionHypothesis member listed (Json.inRange_obj_iff.1 inRange member listed)
        (readPair?_eq_some_iff.1 memberRead).2
  | unreadable => cases read

/-- Both ways of reading a tree give the same value, and they give one exactly if the
tree is readable.  Either way a written value is read back as it was, its integers as
integers and its doubles as doubles, exactly if its doubles are finite and its maps
sorted. -/
theorem readings_agree_and_restore :
    (∀ tree, decode? tree = ofJson? tree ∧ (ofJson? tree).isSome = tree.isReadable) ∧
      ∀ value : PropertyValue,
        (ofJson? value.toJson = some value ↔ value.Representable) ∧
          (decode? value.toJson = some value ↔ value.Representable) :=
  ⟨fun tree => ⟨decode?_eq_ofJson? tree, isSome_ofJson? tree⟩,
    fun value => ⟨ofJson?_toJson_iff value, decode?_toJson_iff value⟩⟩

/-- Integers beyond 63 bits are held as doubles, which are not integers again. -/
example :
    decode? (.arr [.int 9223372036854775807, .int 9223372036854775808]) =
      some (.list [.int 9223372036854775807, .float ⟨0x43E0000000000000⟩]) := by
  decide +kernel

end PropertyValue
end VisualQuery

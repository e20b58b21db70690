import VisualQuery.Json.Basic

/-!
# Growing tables

A document grows one table.  A header opens a table below it, a dotted key
walks through tables and creates those that are missing.  A table remembers
whether it was only implied by a longer name and whether a dotted key made it,
which decides whether a later header or key may enter it.
-/

namespace VisualQuery
namespace Toml

/-- What a key stands for. -/
inductive Item where
  | value (value : Json)
  | table (implied dotted : Bool) (entries : List (String × Item))
  /-- Tables under one repeated header, the last one open. -/
  | tables (elements : List (List (String × Item)))

/-- A table with its history. -/
structure Table where
  /-- The table exists only because a longer name runs through it. -/
  implied : Bool := false
  /-- A dotted key made the table. -/
  dotted : Bool := false
  entries : KeyedList Item := []

namespace Table

/-- The table as an item. -/
def toItem (table : Table) : Item := .table table.implied table.dotted table.entries

/-- Put an item under a key. -/
def put (key : String) (item : Item) (table : Table) : Table :=
  { table with entries := KeyedList.insert key item table.entries }

/-- Change the table at the end of a path, creating implied tables on the way.
A dotted path may enter implied tables only. -/
def descend (dotted : Bool) (change : Table → Option Table) :
    (path : List String) → Table → Option Table
  | [], table => change table
  | key :: path, table =>
    match KeyedList.lookup? key table.entries with
    | none => do
      let child ← descend dotted change path { implied := true, dotted }
      pure (table.put key child.toItem)
    | some (.value _) => none
    | some (.tables elements) =>
      match elements.reverse with
      | [] => none
      | last :: earlier => do
        let child ← descend dotted change path { entries := last }
        pure (table.put key (.tables (earlier.reverse ++ [child.entries])))
    | some (.table implied wasDotted entries) =>
      if dotted && !implied then none
      else do
        let child ← descend dotted change path { implied, dotted := wasDotted, entries }
        pure (table.put key child.toItem)

/-- Open the table of a header at the last part of its name. -/
def openLast (key : String) (parent : Table) : Option Table :=
  match KeyedList.lookup? key parent.entries with
  | none => some (parent.put key (.table false false []))
  | some (.table true false entries) => some (parent.put key (.table false false entries))
  | some _ => none

/-- Open one more table of a repeated header at the last part of its name. -/
def repeatLast (key : String) (parent : Table) : Option Table :=
  match KeyedList.lookup? key parent.entries with
  | none => some (parent.put key (.tables [[]]))
  | some (.tables elements) => some (parent.put key (.tables (elements ++ [[]])))
  | some _ => none

/-- Do something with the last part of a name at the end of the others. -/
def atLast (dotted : Bool) (change : String → Table → Option Table) (name : List String)
    (table : Table) : Option Table :=
  match name.reverse with
  | [] => none
  | last :: earlier => descend dotted (change last) earlier.reverse table

/-- Open the table of a header. -/
def openTable (name : List String) (table : Table) : Option Table :=
  atLast false openLast name table

/-- Open one more table of a repeated header. -/
def openRepeated (name : List String) (table : Table) : Option Table :=
  atLast false repeatLast name table

/-- Add a key that is not there yet; a path of keys must end in a table that
dotted keys made. -/
def addLast (viaPath : Bool) (item : Item) (key : String) (table : Table) : Option Table :=
  if table.dotted ≠ viaPath ∨ KeyedList.contains key table.entries then none
  else some (table.put key item)

/-- Add a dotted key to a table. -/
def addKey (name : List String) (item : Item) (table : Table) : Option Table :=
  atLast true (addLast (1 < name.length) item) name table

end Table

namespace Item

mutual

/-- The JSON tree of an item. -/
def toJson : Item → Json
  | .value leaf => leaf
  | .table _ _ entries => .obj (entriesToJson entries)
  | .tables elements => .arr (elementsToJson elements)

/-- JSON trees of the entries of a table. -/
def entriesToJson : List (String × Item) → List (String × Json)
  | [] => []
  | (key, item) :: rest => (key, toJson item) :: entriesToJson rest

/-- JSON trees of the tables under a repeated header. -/
def elementsToJson : List (List (String × Item)) → List Json
  | [] => []
  | entries :: rest => .obj (entriesToJson entries) :: elementsToJson rest

end

end Item

/-- The JSON tree of a table. -/
def Table.toJson (table : Table) : Json := .obj (Item.entriesToJson table.entries)

end Toml
end VisualQuery

import VisualQuery.Toml.Scalar
import VisualQuery.Toml.Table

/-!
# Reading TOML documents

A document is a sequence of lines: blank or a comment, a header that opens a
table, or a key with its value in the open table.  It is read into a JSON
tree, since that is what every structure is decoded from.
-/

namespace VisualQuery
namespace Toml

/-! ## Values -/

mutual

/-- Read a value that `depth` containers enclose. -/
def readValue? : (fuel depth : Nat) → List Char → Option (Json × List Char)
  | 0, _, _ => none
  | fuel + 1, depth, text =>
    match text with
    | '[' :: rest =>
      if maxDepth ≤ depth then none
      else (readItems? fuel (depth + 1) rest).map fun (items, rest) => (.arr items, rest)
    | '{' :: rest =>
      if maxDepth ≤ depth then none
      else
        match skipBlanks rest with
        | '}' :: rest => some (.obj [], rest)
        | rest =>
          (readEntries? fuel (depth + 1) {} rest).map fun (table, rest) => (table.toJson, rest)
    | 't' :: 'r' :: 'u' :: 'e' :: rest => some (.bool true, rest)
    | 'f' :: 'a' :: 'l' :: 's' :: 'e' :: rest => some (.bool false, rest)
    | c :: rest =>
      if c = '"' ∨ c = '\'' then
        (readString? (c :: rest)).map fun (value, rest) => (.str value, rest)
      else readScalar? (c :: rest)
    | [] => none

/-- Read the items of an array and its closing bracket; a comma may follow the
last item. -/
def readItems? : (fuel depth : Nat) → List Char → Option (List Json × List Char)
  | 0, _, _ => none
  | fuel + 1, depth, text =>
    match skipSpace fuel text with
    | ']' :: rest => some ([], rest)
    | rest => do
      let (item, rest) ← readValue? fuel depth rest
      match skipSpace fuel rest with
      | ',' :: rest =>
        let (items, rest) ← readItems? fuel depth rest
        pure (item :: items, rest)
      | ']' :: rest => pure ([item], rest)
      | _ => none

/-- Read the entries of an inline table and its closing brace into a table. -/
def readEntries? : (fuel depth : Nat) → Table → List Char → Option (Table × List Char)
  | 0, _, _, _ => none
  | fuel + 1, depth, table, text => do
    let (name, rest) ← readKey? text
    let rest ← Json.expect? ['='] rest
    let (value, rest) ← readValue? fuel depth (skipBlanks rest)
    let table ← table.addKey name (.value value)
    match skipBlanks rest with
    | ',' :: rest => readEntries? fuel depth table rest
    | '}' :: rest => pure (table, rest)
    | _ => none

end

/-! ## Lines -/

/-- What has been read: all tables, and the name of the open one. -/
structure Progress where
  root : Table := {}
  current : List String := []

/-- Read a header after its opening brackets. -/
def readHeader? (closing : List Char) (openAt : List String → Table → Option Table)
    (progress : Progress) (text : List Char) : Option (Progress × List Char) := do
  let (name, rest) ← readKey? text
  let rest ← Json.expect? closing rest
  let rest ← readLineEnd? rest
  let root ← openAt name progress.root
  pure (⟨root, name⟩, rest)

/-- Read a key with its value. -/
def readEntry? (progress : Progress) (text : List Char) :
    Option (Progress × List Char) := do
  let (name, rest) ← readKey? text
  let rest ← Json.expect? ['='] rest
  let value := skipBlanks rest
  let (value, rest) ← readValue? (2 * value.length + 2) 0 value
  let rest ← readLineEnd? rest
  let root ← progress.root.descend false (Table.addKey name (.value value)) progress.current
  pure ({ progress with root }, rest)

/-- Read one line. -/
def readLine? (progress : Progress) (text : List Char) : Option (Progress × List Char) :=
  match skipBlanks text with
  | '[' :: '[' :: rest => readHeader? [']', ']'] Table.openRepeated progress rest
  | '[' :: rest => readHeader? [']'] Table.openTable progress rest
  | rest =>
    match readLineEnd? rest with
    | some rest => some (progress, rest)
    | none => readEntry? progress rest

/-- Read lines to the end of the text. -/
def readLines? : (fuel : Nat) → Progress → List Char → Option Progress
  | _, progress, [] => some progress
  | 0, _, _ :: _ => none
  | fuel + 1, progress, c :: rest => do
    let (progress, rest) ← readLine? progress (c :: rest)
    readLines? fuel progress rest

/-- Read a document into a JSON tree.  A byte order mark in front is dropped. -/
def parse? (text : String) : Option Json :=
  let chars :=
    match text.toList with
    | c :: rest => if c.toNat = 0xFEFF then rest else c :: rest
    | [] => []
  (readLines? (chars.length + 1) {} chars).map fun progress => progress.root.toJson

end Toml
end VisualQuery

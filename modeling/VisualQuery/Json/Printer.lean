import VisualQuery.Json.Basic
import VisualQuery.Number.Notation

/-!
# Written JSON

The compact form has no blanks.  The indented form puts every item on a line
of its own, two blanks deeper than its container; empty containers stay on one
line.  In strings the quote, the backslash and the control characters below
the blank are escaped, everything else stands for itself.
-/

namespace VisualQuery
namespace Json

/-- A lower-case hexadecimal digit. -/
def hexDigit (value : Nat) : Char :=
  if value < 10 then Char.ofNat (48 + value) else Char.ofNat (87 + value)

/-- A character inside a quoted string. -/
def escapeChar (c : Char) : List Char :=
  match c with
  | '"' => ['\\', '"']
  | '\\' => ['\\', '\\']
  | '\n' => ['\\', 'n']
  | '\r' => ['\\', 'r']
  | '\t' => ['\\', 't']
  | c =>
    if c.toNat = 8 then ['\\', 'b']
    else if c.toNat = 12 then ['\\', 'f']
    else if c.toNat < 32 then
      ['\\', 'u', '0', '0', hexDigit (c.toNat / 16), hexDigit (c.toNat % 16)]
    else [c]

/-- A string in quotes. -/
def quote (text : String) : String :=
  String.ofList ('"' :: (text.toList.flatMap escapeChar ++ ['"']))

mutual

/-- The compact form. -/
def compact : Json → String
  | .null | .unreadable => "null"
  | .bool value => if value then "true" else "false"
  | .int value => toString value
  | .float value => value.scientific?.getD "null"
  | .str value => quote value
  | .arr items => "[" ++ ",".intercalate (compactItems items) ++ "]"
  | .obj members => "\x7b" ++ ",".intercalate (compactMembers members) ++ "\x7d"

/-- Compact forms of the items of an array. -/
def compactItems : List Json → List String
  | [] => []
  | item :: rest => compact item :: compactItems rest

/-- Compact forms of the members of an object. -/
def compactMembers : List (String × Json) → List String
  | [] => []
  | (name, value) :: rest => (quote name ++ ":" ++ compact value) :: compactMembers rest

end

/-- A line break and `depth` steps of indentation. -/
def lineBreak (depth : Nat) : String :=
  String.ofList ('\n' :: List.replicate (2 * depth) ' ')

/-- The lines of a container between its brackets. -/
def block (openBracket closeBracket : String) (depth : Nat) (lines : List String) : String :=
  if lines.isEmpty then openBracket ++ closeBracket
  else
    openBracket ++ lineBreak (depth + 1) ++
      ("," ++ lineBreak (depth + 1)).intercalate lines ++ lineBreak depth ++ closeBracket

mutual

/-- The indented form of a value that stands `depth` steps deep. -/
def indented (depth : Nat) : Json → String
  | .arr items => block "[" "]" depth (indentedItems (depth + 1) items)
  | .obj members => block "\x7b" "\x7d" depth (indentedMembers (depth + 1) members)
  | .null => compact .null
  | .unreadable => compact .unreadable
  | .bool value => compact (.bool value)
  | .int value => compact (.int value)
  | .float value => compact (.float value)
  | .str value => compact (.str value)

/-- Indented forms of the items of an array. -/
def indentedItems (depth : Nat) : List Json → List String
  | [] => []
  | item :: rest => indented depth item :: indentedItems depth rest

/-- Indented forms of the members of an object. -/
def indentedMembers (depth : Nat) : List (String × Json) → List String
  | [] => []
  | (name, value) :: rest =>
    (quote name ++ ": " ++ indented depth value) :: indentedMembers depth rest

end

/-- The indented form. -/
def pretty (value : Json) : String := indented 0 value

end Json
end VisualQuery

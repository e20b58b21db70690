import VisualQuery.Json.Parser

/-!
# Characters, blanks and strings of TOML

Four kinds of strings: quoted by `"` with escapes or by `'` without, each on
one line or, with tripled quotes, over several.  A multi-line string drops a
line break right after its opening quotes and writes every line break as a
line feed.
-/

namespace VisualQuery
namespace Toml

/-- Characters beyond ASCII. -/
def isNonAscii (c : Char) : Bool := 0x80 ≤ c.toNat

/-- Blank and tab. -/
def isBlank (c : Char) : Bool := c = ' ' || c = '\t'

/-- Tabs and everything that is not a control character. -/
def isVisible (c : Char) : Bool :=
  c = '\t' || (0x20 ≤ c.toNat && c.toNat ≤ 0x7E) || isNonAscii c

/-- Characters that stand for themselves in a string with escapes. -/
def isBasic (c : Char) : Bool := isVisible c && c ≠ '"' && c ≠ '\\'

/-- Characters of a string without escapes. -/
def isLiteral (c : Char) : Bool := isVisible c && c ≠ '\''

/-- Characters of a key without quotes. -/
def isBare (c : Char) : Bool := c.isAlphanum || c = '-' || c = '_'

/-- The text behind leading blanks. -/
def skipBlanks (text : List Char) : List Char := text.dropWhile isBlank

/-- Read a line break. -/
def readNewline? : List Char → Option (List Char)
  | '\n' :: rest => some rest
  | '\r' :: '\n' :: rest => some rest
  | _ => none

/-- The text behind a comment, if there is one. -/
def skipComment : List Char → List Char
  | '#' :: rest => rest.dropWhile isVisible
  | text => text

/-- Read the end of a line: blanks, a comment and a line break or the end of
the text. -/
def readLineEnd? (text : List Char) : Option (List Char) :=
  match skipComment (skipBlanks text) with
  | [] => some []
  | rest => readNewline? rest

/-- The text behind blanks, comments and line breaks. -/
def skipSpace : (fuel : Nat) → List Char → List Char
  | 0, text => text
  | fuel + 1, text =>
    let rest := skipComment (skipBlanks text)
    match readNewline? rest with
    | some rest => skipSpace fuel rest
    | none => rest

/-- The text behind blanks and line breaks. -/
def skipBlankLines : (fuel : Nat) → List Char → List Char
  | 0, text => text
  | fuel + 1, text =>
    let rest := skipBlanks text
    match readNewline? rest with
    | some rest => skipBlankLines fuel rest
    | none => rest

/-! ## Escapes -/

/-- The character with a code, if it is one. -/
def charOfCode? (code : Nat) : Option Char :=
  if code < 0xD800 ∨ (0xE000 ≤ code ∧ code < 0x110000) then some (Char.ofNat code) else none

/-- Read a number of hexadecimal digits. -/
def readHexDigits? : (count value : Nat) → List Char → Option (Nat × List Char)
  | 0, value, text => some (value, text)
  | count + 1, value, c :: rest => do
    let digit ← Json.hexValue? c
    readHexDigits? count (value * 16 + digit) rest
  | _ + 1, _, [] => none

/-- Read what follows the backslash of an escape. -/
def readEscape? : List Char → Option (Char × List Char)
  | 'b' :: rest => some (Char.ofNat 8, rest)
  | 't' :: rest => some ('\t', rest)
  | 'n' :: rest => some ('\n', rest)
  | 'f' :: rest => some (Char.ofNat 12, rest)
  | 'r' :: rest => some ('\r', rest)
  | '"' :: rest => some ('"', rest)
  | '\\' :: rest => some ('\\', rest)
  | 'u' :: rest => do
    let (code, rest) ← readHexDigits? 4 0 rest
    pure (← charOfCode? code, rest)
  | 'U' :: rest => do
    let (code, rest) ← readHexDigits? 8 0 rest
    pure (← charOfCode? code, rest)
  | _ => none

/-! ## Strings on one line -/

/-- Read a string with escapes after its opening quote. -/
def readBasic? : (fuel : Nat) → List Char → Option (List Char × List Char)
  | 0, _ => none
  | fuel + 1, text =>
    match text with
    | '"' :: rest => some ([], rest)
    | '\\' :: rest => do
      let (c, rest) ← readEscape? rest
      let (tail, rest) ← readBasic? fuel rest
      pure (c :: tail, rest)
    | c :: rest =>
      if isBasic c then (readBasic? fuel rest).map fun (tail, rest) => (c :: tail, rest)
      else none
    | [] => none

/-- Read a string without escapes after its opening quote. -/
def readLiteral? (text : List Char) : Option (List Char × List Char) :=
  match text.dropWhile isLiteral with
  | '\'' :: rest => some (text.takeWhile isLiteral, rest)
  | _ => none

/-! ## Strings over several lines -/

/-- Read the closing quotes of a multi-line string; up to two more quotes in
front of them belong to the string. -/
def readClosing? (quote : Char) (text : List Char) : Option (List Char × List Char) :=
  match min 5 (text.takeWhile (· = quote)).length with
  | 3 => some ([], text.drop 3)
  | 4 => some ([quote], text.drop 4)
  | 5 => some ([quote, quote], text.drop 5)
  | _ => none

/-- Read the line break behind a trailing backslash with the blank lines and
blanks after it. -/
def readContinuation? (text : List Char) : Option (List Char) :=
  (readNewline? (skipBlanks text)).map fun rest => skipBlankLines rest.length rest

/-- Read a multi-line string with escapes after its opening quotes. -/
def readLongBasic? : (fuel : Nat) → List Char → Option (List Char × List Char)
  | 0, _ => none
  | fuel + 1, text =>
    match readClosing? '"' text, readNewline? text, text with
    | some result, _, _ => some result
    | none, some rest, _ => (readLongBasic? fuel rest).map fun (tail, rest) => ('\n' :: tail, rest)
    | none, none, '\\' :: rest =>
      match readContinuation? rest with
      | some rest => readLongBasic? fuel rest
      | none => do
        let (c, rest) ← readEscape? rest
        let (tail, rest) ← readLongBasic? fuel rest
        pure (c :: tail, rest)
    | none, none, c :: rest =>
      if isBasic c || c = '"' then
        (readLongBasic? fuel rest).map fun (tail, rest) => (c :: tail, rest)
      else none
    | none, none, [] => none

/-- Read a multi-line string without escapes after its opening quotes. -/
def readLongLiteral? : (fuel : Nat) → List Char → Option (List Char × List Char)
  | 0, _ => none
  | fuel + 1, text =>
    match readClosing? '\'' text, readNewline? text, text with
    | some result, _, _ => some result
    | none, some rest, _ =>
      (readLongLiteral? fuel rest).map fun (tail, rest) => ('\n' :: tail, rest)
    | none, none, c :: rest =>
      if isVisible c then
        (readLongLiteral? fuel rest).map fun (tail, rest) => (c :: tail, rest)
      else none
    | none, none, [] => none

/-- The text behind one line break, if it starts with one. -/
def skipNewline (text : List Char) : List Char := (readNewline? text).getD text

/-- Read a string of any kind. -/
def readString? : List Char → Option (String × List Char)
  | '"' :: '"' :: '"' :: rest =>
    (readLongBasic? (rest.length + 1) (skipNewline rest)).map fun (chars, rest) =>
      (String.ofList chars, rest)
  | '\'' :: '\'' :: '\'' :: rest =>
    (readLongLiteral? (rest.length + 1) (skipNewline rest)).map fun (chars, rest) =>
      (String.ofList chars, rest)
  | '"' :: rest =>
    (readBasic? (rest.length + 1) rest).map fun (chars, rest) => (String.ofList chars, rest)
  | '\'' :: rest => (readLiteral? rest).map fun (chars, rest) => (String.ofList chars, rest)
  | _ => none

/-! ## Keys -/

/-- Read one part of a key. -/
def readKeyPart? (text : List Char) : Option (String × List Char) :=
  match text with
  | '"' :: rest =>
    (readBasic? (rest.length + 1) rest).map fun (chars, rest) => (String.ofList chars, rest)
  | '\'' :: rest => (readLiteral? rest).map fun (chars, rest) => (String.ofList chars, rest)
  | text =>
    match text.takeWhile isBare with
    | [] => none
    | chars => some (String.ofList chars, text.dropWhile isBare)

/-- Read the parts of a key between dots. -/
def readKeyParts? : (fuel : Nat) → List Char → Option (List String × List Char)
  | 0, _ => none
  | fuel + 1, text => do
    let (part, rest) ← readKeyPart? (skipBlanks text)
    match skipBlanks rest with
    | '.' :: rest =>
      let (parts, rest) ← readKeyParts? fuel rest
      pure (part :: parts, rest)
    | rest => pure ([part], rest)

/-- How many containers, or parts of a key, may enclose each other. -/
def maxDepth : Nat := 79

/-- Read a key of at most `maxDepth` parts. -/
def readKey? (text : List Char) : Option (List String × List Char) := do
  let (parts, rest) ← readKeyParts? (text.length + 1) text
  if parts.length ≤ maxDepth then pure (parts, rest) else none

end Toml
end VisualQuery

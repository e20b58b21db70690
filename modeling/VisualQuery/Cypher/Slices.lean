import VisualQuery.Cypher.Clauses

/-!
# Clauses as slices

The clauses of a statement are slices of its bytes.  A slice is refused if one of its
ends lies past the text or within a character, or if its ends are in the wrong order.
The scan goes over the characters with their byte positions and keeps the position
where the clause it stands in began.
-/

namespace VisualQuery
namespace Cypher

/-- The text between two byte positions. -/
def slice? (text : String) (start stop : String.Pos.Raw) : Option String :=
  if bounds : start.IsValid text ∧ stop.IsValid text ∧ start ≤ stop then
    some (String.extract (text.pos start bounds.1) (text.pos stop bounds.2.1))
  else none

/-- Where a scan over the bytes of a statement stands. -/
structure SliceScan where
  /-- The clauses that are complete. -/
  clauses : List String := []
  /-- Where the current clause starts. -/
  start : String.Pos.Raw := 0
  state : ScanState := {}

namespace SliceScan

/-- Take the character at a byte position.  Behind a blank outside quotes and brackets
the rest of the statement is looked at; if it opens a clause, the current one ends at
the blank. -/
def advance? (statement : String) (scan : SliceScan) (position : String.Pos.Raw) (c : Char) :
    Option SliceScan :=
  if c = ' ' ∧ scan.state.isNeutral then do
    let next : String.Pos.Raw := ⟨position.byteIdx + 1⟩
    let rest ← slice? statement next statement.rawEndPos
    if startsClause rest.toList then
      let clause ← slice? statement scan.start position
      pure { scan with clauses := scan.clauses ++ [clause], start := next }
    else pure scan
  else pure { scan with state := scan.state.advance c }

/-- Take the characters of a text that starts at a byte position. -/
def run? (statement : String) (scan : SliceScan) (position : String.Pos.Raw) :
    List Char → Option SliceScan
  | [] => some scan
  | c :: rest => do
    let next ← scan.advance? statement position c
    next.run? statement (position + c) rest

end SliceScan

/-- The clauses of a statement, cut at byte positions. -/
def sliceClauses? (statement : String) : Option (List String) := do
  let scan ← SliceScan.run? statement {} 0 statement.toList
  let last ← slice? statement scan.start statement.rawEndPos
  pure (scan.clauses ++ [last])

/-- Where the keyword ends that opens a clause; without one, where the clause starts. -/
def keywordEnd (clause : String) : String.Pos.Raw :=
  match clauseKeywords.find? fun keyword => keyword.isPrefixOf clause.toList with
  | some keyword => (String.ofList keyword).rawEndPos
  | none => 0

/-- The keyword of a clause and what stands behind it, to be shown differently. -/
def splitKeyword? (clause : String) : Option (String × String) := do
  let keyword ← slice? clause 0 (keywordEnd clause)
  let rest ← slice? clause (keywordEnd clause) clause.rawEndPos
  pure (keyword, rest)

end Cypher
end VisualQuery

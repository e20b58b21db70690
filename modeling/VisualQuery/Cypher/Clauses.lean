/-!
# Clauses of a statement

A statement is cut before every clause keyword that follows a blank outside
quotes and brackets.  The blank at a cut is dropped, so the pieces joined by
blanks give the statement back.
-/

namespace VisualQuery
namespace Cypher

/-- Keywords that open a clause, each with the blank behind it. -/
def clauseKeywords : List (List Char) :=
  ["MATCH ".toList, "WHERE ".toList, "RETURN ".toList, "ORDER BY ".toList, "LIMIT ".toList]

/-- Whether a text starts with a clause keyword. -/
def startsClause (text : List Char) : Bool :=
  clauseKeywords.any fun keyword => keyword.isPrefixOf text

/-- Where a scan stands: how many brackets are open, and in which quotes. -/
structure ScanState where
  depth : Nat := 0
  quote : Option Char := none
deriving DecidableEq, Repr

namespace ScanState

/-- Outside all quotes and brackets. -/
def isNeutral (state : ScanState) : Bool := state.depth = 0 && state.quote.isNone

/-- The quotes of the language. -/
def isQuote (c : Char) : Bool := c = '\'' || c = '"' || c.toNat = 96

/-- The state after one more character.  Brackets of all kinds count alike, a
closing one too many is ignored, and inside quotes only the same quote
counts. -/
def advance (state : ScanState) (c : Char) : ScanState :=
  match state.quote with
  | some quote => if c = quote then { state with quote := none } else state
  | none =>
    if isQuote c then { state with quote := some c }
    else if c = '(' ∨ c = '[' ∨ c = '{' then { state with depth := state.depth + 1 }
    else if c = ')' ∨ c = ']' ∨ c = '}' then { state with depth := state.depth - 1 }
    else state

/-- The state after a whole text. -/
def scan (state : ScanState) (text : List Char) : ScanState := text.foldl advance state

end ScanState

/-- Put a character in front of the first piece. -/
def consFirst (c : Char) : List (List Char) → List (List Char)
  | [] => [[c]]
  | first :: rest => (c :: first) :: rest

/-- Cut a text that is read in some state. -/
def clausesFrom (state : ScanState) : List Char → List (List Char)
  | [] => [[]]
  | c :: rest =>
    if c = ' ' ∧ state.isNeutral ∧ startsClause rest then [] :: clausesFrom state rest
    else consFirst c (clausesFrom (state.advance c) rest)

/-- The clauses of a statement. -/
def statementClauses (statement : String) : List String :=
  (clausesFrom {} statement.toList).map String.ofList

end Cypher
end VisualQuery

import VisualQuery.Cypher.Structure

/-!
# Requests to the database

A request carries statements with their parameters and the forms in which
results are wanted.  When no form is named the member is left out.
-/

namespace VisualQuery

/-- One statement of a request. -/
structure StatementRequest where
  statement : Statement
  /-- Wanted forms of the result. -/
  contents : List String
deriving DecidableEq

/-- Statements to be carried out in order. -/
structure TransactionRequest where
  statements : List StatementRequest
deriving DecidableEq

namespace StatementRequest

/-- Ask for rows. -/
def rows (statement : Statement) : StatementRequest := ⟨statement, ["row"]⟩

/-- Ask for the graph form. -/
def graph (statement : Statement) : StatementRequest := ⟨statement, ["graph"]⟩

/-- The JSON form. -/
def toJson (request : StatementRequest) : Json :=
  let contents :=
    if request.contents.isEmpty then []
    else [("resultDataContents", Json.strings request.contents)]
  .obj ([("statement", .str request.statement.text),
    ("parameters", Row.toJson request.statement.parameters)] ++ contents)

/-- Read the JSON form. -/
def ofJson? (value : Json) : Option StatementRequest := do
  let members ← Json.record? ["statement", "parameters", "resultDataContents"] value
  let text ← Json.required? Json.str? "statement" members
  let parameters ← Json.defaulted? [] PropertyValue.row? "parameters" members
  let contents ← Json.defaulted? [] (Json.list? Json.str?) "resultDataContents" members
  pure ⟨⟨text, parameters⟩, contents⟩

end StatementRequest

namespace TransactionRequest

/-- The JSON form. -/
def toJson (request : TransactionRequest) : Json :=
  .obj [("statements", .arr (request.statements.map StatementRequest.toJson))]

/-- Read the JSON form. -/
def ofJson? (value : Json) : Option TransactionRequest := do
  let members ← Json.record? ["statements"] value
  let statements ← Json.required? (Json.list? StatementRequest.ofJson?) "statements" members
  pure ⟨statements⟩

end TransactionRequest
end VisualQuery

import VisualQuery.Exchange.Failure
import VisualQuery.PropertyValue

/-!
# Responses of the database

One result per statement with its columns and data entries, and the errors the
database reports.  All members may be missing from the text of a response.
-/

namespace VisualQuery

/-- One entry of a result. -/
structure DataEntry where
  /-- Values in column order. -/
  row : List PropertyValue
  /-- The graph form of the entry. -/
  graph : Option Json

/-- Result of one statement. -/
structure StatementResult where
  columns : List String
  data : List DataEntry

/-- An error reported by the database. -/
structure ServerError where
  code : String
  message : String
deriving DecidableEq, Repr

/-- Results in the order of the statements, and errors. -/
structure TransactionResponse where
  results : List StatementResult
  errors : List ServerError

namespace DataEntry

/-- The JSON form; a missing graph is left out. -/
def toJson (entry : DataEntry) : Json :=
  let graph :=
    match entry.graph with
    | some graph => [("graph", graph)]
    | none => []
  .obj (("row", .arr (PropertyValue.itemsToJson entry.row)) :: graph)

/-- Read the JSON form. -/
def ofJson? (value : Json) : Option DataEntry := do
  let members ← Json.record? ["row", "graph"] value
  let row ← Json.defaulted? [] (Json.list? PropertyValue.decode?) "row" members
  let graph ← Json.optional? Json.any? "graph" members
  pure ⟨row, graph⟩

end DataEntry

namespace StatementResult

/-- The values of an entry by column; a value that is missing reads null. -/
def rowOf (columns : List String) (entry : DataEntry) : Row :=
  KeyedList.ofList
    (columns.zipIdx.map fun (column, index) => (column, entry.row.getD index .null))

/-- All rows by column. -/
def rows (result : StatementResult) : List Row := result.data.map (rowOf result.columns)

/-- The JSON form. -/
def toJson (result : StatementResult) : Json :=
  .obj [("columns", .strings result.columns), ("data", .arr (result.data.map DataEntry.toJson))]

/-- Read the JSON form. -/
def ofJson? (value : Json) : Option StatementResult := do
  let members ← Json.record? ["columns", "data"] value
  let columns ← Json.defaulted? [] (Json.list? Json.str?) "columns" members
  let data ← Json.defaulted? [] (Json.list? DataEntry.ofJson?) "data" members
  pure ⟨columns, data⟩

end StatementResult

namespace ServerError

/-- The JSON form. -/
def toJson (error : ServerError) : Json :=
  .obj [("code", .str error.code), ("message", .str error.message)]

/-- Read the JSON form. -/
def ofJson? (value : Json) : Option ServerError := do
  let members ← Json.record? ["code", "message"] value
  let code ← Json.defaulted? "" Json.str? "code" members
  let message ← Json.defaulted? "" Json.str? "message" members
  pure ⟨code, message⟩

end ServerError

namespace TransactionResponse

/-- The JSON form. -/
def toJson (response : TransactionResponse) : Json :=
  .obj [("results", .arr (response.results.map StatementResult.toJson)),
    ("errors", .arr (response.errors.map ServerError.toJson))]

/-- Read the JSON form. -/
def ofJson? (value : Json) : Option TransactionResponse := do
  let members ← Json.record? ["results", "errors"] value
  let results ← Json.defaulted? [] (Json.list? StatementResult.ofJson?) "results" members
  let errors ← Json.defaulted? [] (Json.list? ServerError.ofJson?) "errors" members
  pure ⟨results, errors⟩

/-- A response with errors is a failure, its first error the reason. -/
def checked (response : TransactionResponse) :
    Except ExchangeFailure TransactionResponse :=
  match response.errors with
  | error :: _ => .error (.server error.code error.message)
  | [] => .ok response

/-- The rows of the first result. -/
def firstRows (response : TransactionResponse) : List Row :=
  match response.results with
  | result :: _ => result.rows
  | [] => []

end TransactionResponse

/-- How an exchange ends. -/
abbrev Outcome := Except ExchangeFailure TransactionResponse

end VisualQuery

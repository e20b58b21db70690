import VisualQuery.Exchange.Request
import VisualQuery.Exchange.Response
import VisualQuery.Session.Basic

/-!
# Results

The result statement, on its own or with the statement of its graph form, and
the rows that come back for it.
-/

namespace VisualQuery

/-- One row of the result. -/
structure ResultRecord where
  /-- Position in the response. -/
  index : Nat
  /-- Label of the root. -/
  label : String
  attributes : Row

/-- A request for results. -/
structure ResultRequest where
  request : TransactionRequest
  /-- The request holds the statement of the graph form. -/
  withGraph : Bool

namespace Session

/-- The request for results. -/
def resultRequest (withGraph : Bool) (session : Session) :
    Except QueryError ResultRequest := do
  let rows ← session.context.resultQuery
  if withGraph then
    let graph ← session.context.graphQuery
    pure ⟨⟨[.rows rows.toStatement, .graph graph.toStatement]⟩, true⟩
  else pure ⟨⟨[.rows rows.toStatement]⟩, false⟩

/-- The rows of the first result under the label of the root. -/
def parseResults (response : TransactionResponse) (session : Session) :
    Except QueryError (List ResultRecord) := do
  let root ← session.graph.root
  pure (response.firstRows.zipIdx.map fun (attributes, index) => ⟨index, root.label, attributes⟩)

end Session
end VisualQuery

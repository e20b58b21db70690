import VisualQuery.Exchange.Request
import VisualQuery.Exchange.Response
import VisualQuery.Session.Basic

/-!
# Counts

One request asks for the counts of all counted nodes.  Results belong to nodes
by position.  A failed exchange or a response without results sets all counts
to zero; nodes that are gone are passed over.
-/

namespace VisualQuery

/-- The count statements of the counted nodes. -/
structure CountBatch where
  /-- Generation of the graph the batch was made for. -/
  generation : Nat
  /-- Counted nodes in the order of the statements. -/
  nodes : List NodeId
  request : TransactionRequest

namespace Session

/-- The count statements of all counted nodes. -/
def beginCounts (session : Session) : Except QueryError CountBatch := do
  let queries ← session.context.countQueries
  pure {
    generation := session.generation
    nodes := queries.map Prod.fst
    request := ⟨queries.map fun (_, query) => .rows query.toStatement⟩ }

/-- The count in the first cell of a result, zero if there is none. -/
def countOf (result : Option StatementResult) : Nat :=
  let cell := do
    let result ← result
    let entry ← result.data.head?
    entry.row.head?
  (cell.bind PropertyValue.asCount?).getD 0

/-- The count that a response holds for the statement at a position. -/
def countAt (outcome : Outcome) (position : Nat) : Nat :=
  match outcome with
  | .ok response => countOf response.results[position]?
  | .error _ => 0

/-- Store the counts of a response in the nodes of their statements. -/
def storeCounts (nodes : List NodeId) (outcome : Outcome) (graph : QueryGraph) : QueryGraph :=
  nodes.zipIdx.foldl
    (fun graph (id, position) =>
      graph.modifyNode id fun node => { node with count := countAt outcome position })
    graph

/-- Take the response to a batch, unless the graph was started over since. -/
def completeCounts (batch : CountBatch) (outcome : Outcome) : Step Session Unit :=
  Step.atomicUnit fun session =>
    if batch.generation = session.generation then
      .ok { session with graph := storeCounts batch.nodes outcome session.graph }
    else .error (.staleResponse batch.generation)

/-- The count of the root, which is the number of results. -/
def resultCount (session : Session) : Except QueryError Nat :=
  session.graph.root.map Node.count

end Session
end VisualQuery

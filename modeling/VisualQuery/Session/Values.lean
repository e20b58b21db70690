import VisualQuery.Exchange.Request
import VisualQuery.Exchange.Response
import VisualQuery.Session.Basic

/-!
# Listing and selecting values

A listing asks for the values of a node and shows them page by page as value
nodes below it.  Selecting one binds the node to it and takes the others away.
-/

namespace VisualQuery

/-- A value listing under way. -/
structure ValueRequest where
  node : NodeId
  token : Nat
  request : TransactionRequest

namespace Session

/-! ## Collapsing -/

/-- Take away the values listed below a node. -/
def collapseNode (id : NodeId) : Step Session Nat := do
  let node ← inspectGraph (QueryGraph.node id)
  if node.valueExpanded then onGraph (Step.atomic (QueryGraph.removeValues id)) else pure 0

/-- Nodes with listed values. -/
def expandedNodes (graph : QueryGraph) : List NodeId :=
  (graph.nodes.filter fun node => node.kind.listsValues && node.valueExpanded).map Node.id

/-- Take away the values listed below each of some nodes. -/
def collapseEach : List NodeId → Step Session Unit
  | [] => pure ()
  | id :: rest => do
    let _ ← collapseNode id
    collapseEach rest

/-- Take away all listed values. -/
def collapseAll : Step Session Unit := do
  let session ← Step.state
  collapseEach (expandedNodes session.graph)

/-! ## Requests -/

/-- Mark a listing of a node as under way. -/
def issueValueRequest (node : NodeId) (query : QueryStructure) : Step Session ValueRequest :=
  Step.atomic fun session =>
    let token := session.lastToken + 1
    .ok (⟨node, token, ⟨[.rows query.toStatement]⟩⟩,
      { session with waiting := true, pendingValue := some token, lastToken := token })

/-- Begin to list the values of a node.  Nothing is asked for while another
listing is under way or when the node is immutable. -/
def beginValues (id : NodeId) : Step Session (Option ValueRequest) := do
  let node ← inspectGraph (QueryGraph.node id)
  if !node.kind.listsValues then throw (.invalidArgument .notListable)
  let session ← Step.state
  if session.waiting || node.immutable then pure none
  else
    collapseAll
    let query ← Step.inspect fun session => session.context.valueQuery id
    let request ← issueValueRequest id query
    pure (some request)

/-! ## Pages -/

/-- The size of a page, at least one. -/
def pageSize (session : Session) : Nat := max 1 session.options.valuePageSize

/-- The rows on the page of a node. -/
def pageRows (size : Nat) (node : Node) : List Row :=
  (node.data.drop ((node.page - 1) * size)).take size

/-- Add a value for each of some rows. -/
def addValues (id : NodeId) : List Row → Step Session (List NodeId)
  | [] => pure []
  | row :: rest => do
    let value ← onGraph (Step.atomic (QueryGraph.addValue id row))
    let values ← addValues id rest
    pure (value :: values)

/-- Replace the values below a node by those of its page. -/
def showPage (id : NodeId) : Step Session (List NodeId) := do
  let _ ← onGraph (Step.atomic (QueryGraph.removeValues id))
  let session ← Step.state
  let node ← inspectGraph (QueryGraph.node id)
  let values ← addValues id (pageRows session.pageSize node)
  let _ ← inspectGraph (QueryGraph.node id)
  modifyNode id fun node => { node with valueExpanded := true }
  pure values

/-- Clear the mark of the listing under way; any other listing is stale. -/
def settleValueRequest (token : Nat) : Step Session Unit :=
  Step.atomicUnit fun session =>
    if session.pendingValue = some token then
      .ok { session with waiting := false, pendingValue := none }
    else .error (.staleResponse token)

/-- The response of an exchange that must not have failed. -/
def answered (outcome : Outcome) : Except QueryError TransactionResponse :=
  outcome.mapError QueryError.exchange

/-- Take the response to a listing: store its rows and show the first page. -/
def completeValues (request : ValueRequest) (outcome : Outcome) :
    Step Session (List NodeId) := do
  settleValueRequest request.token
  let response ← Step.inspect fun _ => answered outcome
  let _ ← inspectGraph (QueryGraph.node request.node)
  modifyNode request.node fun node => { node with data := response.firstRows, page := 1 }
  showPage request.node

/-- The page after the one on display, the first after the last. -/
def followingPage (size : Nat) (node : Node) : Nat :=
  if node.page * size < node.data.length then node.page + 1 else 1

/-- Show the next page of a node. -/
def nextPage (id : NodeId) : Step Session (List NodeId) := do
  let session ← Step.state
  let _ ← inspectGraph (QueryGraph.node id)
  modifyNode id fun node => { node with page := followingPage session.pageSize node }
  showPage id

/-! ## Selection -/

/-- The node a value was listed for. -/
def listedFor (value : NodeId) (graph : QueryGraph) : Except QueryError NodeId := do
  let node ← graph.node value
  match node.kind, node.parent with
  | .value, some parent => pure parent
  | _, _ => throw (.invalidArgument .notListed)

/-- Bind a listed value to its node and take the other values away. -/
def selectValue (value : NodeId) : Step Session NodeId := do
  let owner ← inspectGraph (listedFor value)
  let node ← inspectGraph (QueryGraph.node owner)
  if node.immutable then throw (.invalidArgument .pinned)
  onGraph (Step.atomicUnit (QueryGraph.bindValue owner value))
  let _ ← collapseNode owner
  pure owner

/-- Unbind a node; the answer tells whether a value was bound. -/
def clearSelection (id : NodeId) : Step Session Bool := do
  let _ ← inspectGraph (QueryGraph.node id)
  collapseAll
  onGraph (Step.atomic (QueryGraph.clearValue id))

end Session
end VisualQuery

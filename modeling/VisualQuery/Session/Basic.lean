import VisualQuery.Compiler.Statements
import VisualQuery.Graph.Schema

/-!
# Sessions

A session holds the graph and what has to be known about requests under way.
At most one value listing is under way; it carries a token, and a response
with another token is stale.  Count batches carry the generation of the graph,
which every start raises.
-/

namespace VisualQuery

/-- The query graph with the state of its requests. -/
structure Session where
  graph : QueryGraph := {}
  metadata : LabelMetadata
  options : QueryOptions
  /-- A value listing is under way. -/
  waiting : Bool := false
  /-- Token of the listing under way. -/
  pendingValue : Option Nat := none
  /-- The last token handed out. -/
  lastToken : Nat := 0
  /-- How often the graph was started over. -/
  generation : Nat := 0

namespace Session

/-- A session with an empty graph. -/
def new (metadata : LabelMetadata) (options : QueryOptions) : Session := { metadata, options }

/-- What the statement builders read. -/
def context (session : Session) : Compiler.QueryContext :=
  ⟨session.graph, session.metadata, session.options⟩

/-- A step on the graph of a session. -/
def onGraph {α : Type} (step : Step QueryGraph α) : Step Session α :=
  Step.onPart Session.graph (fun graph session => { session with graph }) step

/-- Look at the graph. -/
def inspectGraph {α : Type} (look : QueryGraph → Except QueryError α) : Step Session α :=
  Step.inspect fun session => look session.graph

/-- Change the node with an identifier. -/
def modifyNode (id : NodeId) (change : Node → Node) : Step Session Unit :=
  Step.update fun session => { session with graph := session.graph.modifyNode id change }

/-- Give up every request under way. -/
def abandonRequests (session : Session) : Session :=
  { session with
    waiting := false, pendingValue := none, generation := session.generation + 1 }

/-- Start over with a root alone. -/
def start (label : String) : Step Session NodeId :=
  Step.atomic fun session =>
    let (root, graph) := QueryGraph.reset label
    .ok (root, { session.abandonRequests with graph })

/-- Start over with the graph of a schema. -/
def loadSchema (schema : NodeSchema) : Step Session NodeId := do
  Step.update fun session => { session.abandonRequests with graph := .empty }
  onGraph (QueryGraph.addSchema schema)

end Session
end VisualQuery

import VisualQuery.Session.Values

/-!
# Discovering and expanding relationships

A discovery finds the relationships that leave a node.  Expanding one adds the
node at its far end; collapsing takes all of them away again.
-/

namespace VisualQuery

/-- A relationship discovery. -/
structure RelationRequest where
  node : NodeId
  request : TransactionRequest

namespace Session

/-- The discovery of the relationships of a node. -/
def beginRelations (id : NodeId) (session : Session) : Except QueryError RelationRequest := do
  let query ← session.context.relationQuery id
  pure ⟨id, ⟨[.rows query.toStatement]⟩⟩

/-- The relationships of a response that the session keeps. -/
def relationshipsOf (response : TransactionResponse) (session : Session) :
    List Relationship :=
  (response.firstRows.filterMap Relationship.ofRow?).filter session.metadata.acceptRelation

/-- Take the response to a discovery. -/
def completeRelations (request : RelationRequest) (outcome : Outcome) :
    Step Session (List Relationship) := do
  let response ← Step.inspect fun _ => answered outcome
  let session ← Step.state
  let relationships := relationshipsOf response session
  let _ ← inspectGraph (QueryGraph.node request.node)
  modifyNode request.node fun node => { node with relationships }
  pure relationships

/-- Add the node at the far end of a relationship. -/
def addFarEnd (id : NodeId) (relationship : Relationship) : Step Session NodeId := do
  let session ← Step.state
  let isGroup := (session.metadata.resolve relationship.label).group
  onGraph (Step.atomic
    (QueryGraph.addRelationship id relationship.name relationship.label isGroup))

/-- Expand one discovered relationship and take it off the list of its node. -/
def expandRelationship (id : NodeId) (relationship : Relationship) : Step Session NodeId := do
  let node ← inspectGraph (QueryGraph.node id)
  if relationship ∉ node.relationships then throw (.invalidArgument .undiscovered)
  modifyNode id fun node =>
    { node with relationships := node.relationships.erase relationship }
  addFarEnd id relationship

/-- Add the nodes at the far ends of some relationships. -/
def addFarEnds (id : NodeId) : List Relationship → Step Session (List NodeId)
  | [] => pure []
  | relationship :: rest => do
    let child ← addFarEnd id relationship
    let children ← addFarEnds id rest
    pure (child :: children)

/-- Expand all discovered relationships of a node. -/
def expandRelationships (id : NodeId) : Step Session (List NodeId) := do
  let node ← inspectGraph (QueryGraph.node id)
  modifyNode id fun node => { node with relationships := [] }
  addFarEnds id node.relationships

/-- Remove some links with what hangs from them. -/
def removeLinks : List LinkId → Step Session Unit
  | [] => pure ()
  | link :: rest => do
    onGraph (Step.atomicUnit (QueryGraph.removeLink link))
    removeLinks rest

/-- Relationship links that leave a node. -/
def relationsFrom (id : NodeId) (graph : QueryGraph) : List LinkId :=
  (graph.links.filter fun link => link.source = id && link.kind = .relation).map Link.id

/-- Take away everything expanded from a node, unless its values are listed;
the answer counts the links that left it. -/
def collapseRelationships (id : NodeId) : Step Session Nat := do
  let node ← inspectGraph (QueryGraph.node id)
  if node.valueExpanded then pure 0
  else
    collapseAll
    let session ← Step.state
    let links := relationsFrom id session.graph
    removeLinks links
    pure links.length

end Session
end VisualQuery

import VisualQuery.Graph.Error
import VisualQuery.Graph.Node
import VisualQuery.Graph.VariableNames

/-!
# The query graph

Nodes and links in creation order, the counter of identifiers they share, and
the variable names handed out so far.  An edit either fails, and then there is
no new graph, or returns its answer with the graph after it.
-/

namespace VisualQuery

/-- The query under construction. -/
structure QueryGraph where
  nodes : List Node := []
  links : List Link := []
  nextId : Nat := 0
  names : VariableNames := {}
deriving DecidableEq, Inhabited

namespace QueryGraph

/-- The graph without nodes. -/
def empty : QueryGraph := {}

/-! ## Looking things up -/

/-- The node with an identifier. -/
def node? (id : NodeId) (graph : QueryGraph) : Option Node :=
  graph.nodes.find? fun node => node.id = id

/-- The link with an identifier. -/
def link? (id : LinkId) (graph : QueryGraph) : Option Link :=
  graph.links.find? fun link => link.id = id

/-- The node with an identifier, which must exist. -/
def node (id : NodeId) (graph : QueryGraph) : Except QueryError Node :=
  match graph.node? id with
  | some node => .ok node
  | none => .error (.unknownNode id)

/-- The link with an identifier, which must exist. -/
def link (id : LinkId) (graph : QueryGraph) : Except QueryError Link :=
  match graph.link? id with
  | some link => .ok link
  | none => .error (.unknownLink id)

/-- The root, the first node. -/
def root (graph : QueryGraph) : Except QueryError Node :=
  match graph.nodes with
  | first :: _ => if first.isRoot then .ok first else .error .missingRoot
  | [] => .error .missingRoot

/-- The node with a query variable. -/
def findByVariable? (name : String) (graph : QueryGraph) : Option Node :=
  graph.nodes.find? fun node => !node.isValue && node.var = name

/-- The value bound to a node. -/
def boundValue? (node : Node) (graph : QueryGraph) : Option Node :=
  node.value.bind fun id => graph.node? id

/-- Nodes that receive a count: roots and entity terms. -/
def countedNodes (graph : QueryGraph) : List NodeId :=
  (graph.nodes.filter fun node => node.kind.listsValues).map Node.id

/-- Targets of the links of one kind that leave a node. -/
def children (id : NodeId) (kind : LinkKind) (graph : QueryGraph) : List NodeId :=
  (graph.links.filter fun link => link.source = id && link.kind = kind).map Link.target

/-! ## Adding -/

/-- Change the node with an identifier. -/
def modifyNode (id : NodeId) (change : Node → Node) (graph : QueryGraph) : QueryGraph :=
  { graph with nodes := graph.nodes.map fun node => if node.id = id then change node else node }

/-- Append a node under the next identifier. -/
def pushNode (make : NodeId → Node) (graph : QueryGraph) : NodeId × QueryGraph :=
  let id : NodeId := ⟨graph.nextId⟩
  (id, { graph with nodes := graph.nodes ++ [make id], nextId := graph.nextId + 1 })

/-- Append a link under the next identifier. -/
def pushLink
    (source target : NodeId)
    (kind : LinkKind)
    (label : Option String)
    (graph : QueryGraph) : LinkId × QueryGraph :=
  let id : LinkId := ⟨graph.nextId⟩
  let link : Link := ⟨id, kind, source, target, label⟩
  (id, { graph with links := graph.links ++ [link], nextId := graph.nextId + 1 })

/-- The next query variable for a label. -/
def generateVariable (label : String) (graph : QueryGraph) : String × QueryGraph :=
  let (name, names) := graph.names.next label
  (name, { graph with names })

/-- Append a root. -/
def pushRoot (label : String) (graph : QueryGraph) : NodeId × QueryGraph :=
  let (var, graph) := graph.generateVariable label
  graph.pushNode fun id => { id, kind := .root, label, var, parent := none }

/-- Add the root to an empty graph. -/
def addRoot (label : String) (graph : QueryGraph) :
    Except QueryError (NodeId × QueryGraph) :=
  if graph.nodes.isEmpty then .ok (graph.pushRoot label) else .error .rootAlreadyPresent

/-- Start over with a root alone. -/
def reset (label : String) : NodeId × QueryGraph := empty.pushRoot label

/-- Add an entity term, or a group, below a node.  No link is made. -/
def addNode (parent : NodeId) (label : String) (isGroup : Bool) (graph : QueryGraph) :
    Except QueryError (NodeId × QueryGraph) := do
  let _ ← graph.node parent
  let (var, graph) := graph.generateVariable label
  let kind : NodeKind := if isGroup then .group else .choose
  pure (graph.pushNode fun id => { id, kind, label, var, parent := some parent })

/-- Add a link between two nodes. -/
def addLink
    (source target : NodeId)
    (kind : LinkKind)
    (label : Option String)
    (graph : QueryGraph) : Except QueryError (LinkId × QueryGraph) := do
  let _ ← graph.node source
  let _ ← graph.node target
  pure (graph.pushLink source target kind label)

/-- Add a node below a parent and the relationship that leads to it. -/
def addRelationship
    (parent : NodeId)
    (relationship label : String)
    (isGroup : Bool)
    (graph : QueryGraph) : Except QueryError (NodeId × QueryGraph) := do
  let (child, graph) ← graph.addNode parent label isGroup
  let (_, graph) ← graph.addLink parent child .relation (some relationship)
  pure (child, graph)

/-- Add a candidate value below a root or an entity term.  Its database
identity and its count come from its attributes. -/
def addValue (parent : NodeId) (attributes : Row) (graph : QueryGraph) :
    Except QueryError (NodeId × QueryGraph) := do
  let owner ← graph.node parent
  if !owner.kind.listsValues then throw (.invalidArgument .valueOwner)
  let internalId := (KeyedList.lookup? internalIdColumn attributes).bind PropertyValue.asInt?
  let count := ((KeyedList.lookup? "count" attributes).bind PropertyValue.asCount?).getD 0
  let (value, graph) := graph.pushNode fun id =>
    { id, kind := .value, label := owner.label, var := "", parent := some parent,
      attributes, internalId, count }
  let (_, graph) ← graph.addLink parent value .value none
  pure (value, graph)

end QueryGraph
end VisualQuery

import VisualQuery.Compiler.Elements
import VisualQuery.Proofs.Cypher.Semantics
import VisualQuery.Proofs.Graph.Coherence

/-!
# What a query graph shows

The root and everything on the way from it to a bound node ask for nodes of a
property graph.  A placement chooses a node for each; it fits if labels,
relationships, bound values and predefined constraints are met.
-/

namespace VisualQuery
namespace QueryGraph

/-- The root, the terms bound to a value, and the terms above those. -/
structure Pictured (graph : QueryGraph) (node : Node) : Prop where
  member : node ∈ graph.nodes
  isTerm : node.kind ≠ .value
  needed :
    node.kind = .root ∨
      ∃ bound ∈ graph.nodes, bound.isBound = true ∧ graph.Beneath node.id bound.id

end QueryGraph

namespace Compiler

open Cypher

variable {database : Database}

/-- A node of the database has the constraint attribute of a value bound to a
node of a label.  Attributes that are missing or `null` are no one's. -/
def Meets
    (metadata : LabelMetadata)
    (label : String)
    (value : Node)
    (stored : database.Node) : Prop :=
  match (metadata.resolve label).constraintAttribute with
  | .internalId => value.internalId = some (database.identity stored)
  | .property name =>
    ∃ known, value.attribute? name = some known ∧ known ≠ .null ∧
      database.property stored name = known

/-- Which variable of a pictured node stands for which node. -/
def placed
    (graph : QueryGraph)
    (place : NodeId → database.Node)
    (name : String)
    (stored : database.Node) : Prop :=
  ∃ node, graph.Pictured node ∧ node.var = name ∧ place node.id = stored

/-- A placement of the pictured nodes fits the graph. -/
structure Fits
    (metadata : LabelMetadata)
    (direction : Direction)
    (graph : QueryGraph)
    (judge : Judge database)
    (place : NodeId → database.Node) : Prop where
  labels : ∀ node, graph.Pictured node → database.hasLabel (place node.id) node.label
  relations :
    ∀ link ∈ graph.links, link.isRelation = true →
      ∀ node, graph.Pictured node → node.id = link.target →
        ∃ relation,
          database.Related link.label direction (place link.source) (place link.target) relation
  values :
    ∀ node, graph.Pictured node → ∀ value ∈ graph.nodes, node.value = some value.id →
      Meets metadata node.label value (place node.id)
  predefined :
    ∀ node, graph.Pictured node →
      ∀ template ∈ (metadata.resolve node.label).predefinedConstraints,
        judge (substitute "$identifier" node.var template) (placed graph place)

/-- Names in the statement of a graph do not collide: those of terms, of
relationships, and of the parameters of bound nodes. -/
structure DistinctNames (metadata : LabelMetadata) (graph : QueryGraph) : Prop where
  terms :
    ∀ left ∈ graph.nodes, ∀ right ∈ graph.nodes, left.kind ≠ .value → right.kind ≠ .value →
      left.var = right.var → left = right
  paths :
    ∀ node ∈ graph.nodes, node.kind ≠ .value → ∀ index, node.var ≠ "r" ++ Nat.repr index
  parameters :
    ∀ left ∈ graph.nodes, ∀ right ∈ graph.nodes, left.isBound = true → right.isBound = true →
      ∀ leftName rightName,
        (metadata.resolve left.label).constraintAttribute = .property leftName →
        (metadata.resolve right.label).constraintAttribute = .property rightName →
        parameterName left leftName = parameterName right rightName → left = right

end Compiler
end VisualQuery

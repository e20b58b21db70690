import VisualQuery.Compiler.Elements
import VisualQuery.Compiler.Options

/-!
# The statements of a query graph

Five statements come from a graph: the result rows, their graph form, the
count and the values of a node, and the relationships that leave a node.  Each
is first built by its parts and then rendered and passed through the hook of
its label.  One more counts all nodes of a label and needs no graph.
-/

namespace VisualQuery
namespace Compiler

open Cypher

/-- What the builders read. -/
structure QueryContext where
  graph : QueryGraph
  metadata : LabelMetadata
  options : QueryOptions

/-- The column of counts. -/
def countColumn : String := "count"

/-- The variable of the relationship in a discovery statement. -/
def discoveryRelation : String := "r"

/-- The variable of the far end in a discovery statement. -/
def discoveryEnd : String := "x"

/-- The variable of a taxonomy count. -/
def taxonomyVariable : String := "n"

/-- The operand that reads an attribute of a variable. -/
def operandOf (var : String) : Attribute → Operand
  | .internalId => .identity var
  | .property name => .property var name

namespace QueryContext

/-- The arrow of all relationships. -/
def direction (context : QueryContext) : Direction :=
  .ofDirected context.options.useRelationDirection

/-- A statement with the compiled elements and nothing returned yet. -/
def base (elements : QueryElements) (distinct : Bool) : Query where
  matched := elements.matched
  predicates := elements.predicates
  distinct := distinct
  parameters := elements.parameters

/-- The operand by which nodes like this one are counted. -/
def constraintOperand (context : QueryContext) (node : Node) : Operand :=
  operandOf node.var (context.metadata.resolve node.label).constraintAttribute

/-- Projections of the returned attributes: the constraint attribute as it is,
every other one collected. -/
def attributeProjections (context : QueryContext) (node : Node) : List Projection :=
  let resolved := context.metadata.resolve node.label
  resolved.returnAttributes.map fun candidate =>
    let operand := operandOf node.var candidate
    if candidate = resolved.constraintAttribute then .field operand candidate.name
    else .collect operand candidate.name

/-- An ordering, if there is a key. -/
def ordering (key : Option String) (ascending : Bool) : List EndElement :=
  match key with
  | some key => [.orderBy key ascending]
  | none => []

/-- The ordering and the limit of results. -/
def resultEnding (context : QueryContext) (root : Node) : List EndElement :=
  let resolved := context.metadata.resolve root.label
  ordering resolved.resultOrderBy resolved.resultOrderAscending
    ++ [.limit context.options.resultsPageSize]

/-- The root and the elements of the whole pattern. -/
def rootElements (context : QueryContext) : Except QueryError (Node × QueryElements) := do
  let root ← context.graph.root
  let links := context.graph.relevantLinks root.id root.id
  let elements ←
    compile context.metadata context.graph context.direction root.id root.id links true
  pure (root, elements)

/-! ## Statements by their parts -/

/-- Rows of the roots that match the pattern. -/
def resultParts (context : QueryContext) : Except QueryError (Node × Query) := do
  let (root, elements) ← context.rootElements
  pure (root, { base elements true with
    projections := context.attributeProjections root
    ending := context.resultEnding root })

/-- The root and all relationships of the pattern, for drawing the matches. -/
def graphParts (context : QueryContext) : Except QueryError (Node × Query) := do
  let (root, elements) ← context.rootElements
  pure (root, { base elements true with
    projections := .var root.var :: elements.relationVariables.map .var
    ending := context.resultEnding root })

/-- The number of distinct values of a node under the pattern. -/
def countParts (context : QueryContext) (id : NodeId) : Except QueryError (Node × Query) := do
  let root ← context.graph.root
  let counted ← context.graph.node id
  let links := context.graph.relevantLinks root.id counted.id
  let elements ←
    compile context.metadata context.graph context.direction root.id counted.id links true
  pure (counted, { base elements false with
    projections := [.countDistinct (context.constraintOperand counted) countColumn] })

/-- Values of a node with the number of roots each leads to.  The node's own
value does not constrain the listing. -/
def valueParts (context : QueryContext) (id : NodeId) : Except QueryError (Node × Query) := do
  let root ← context.graph.root
  let target ← context.graph.node id
  let links := context.graph.relevantLinks root.id target.id
  let elements ←
    compileElements context.metadata context.graph context.direction root.id target.id links
      true (target.id = root.id)
  let resolved := context.metadata.resolve target.label
  pure (target, { base elements true with
    projections := context.attributeProjections target
      ++ [.countDistinct (context.constraintOperand root) countColumn]
    ending := ordering resolved.valueOrderBy resolved.valueOrderAscending
      ++ [.limit context.options.valueQueryLimit] })

/-- The path of a discovery: any relationship from a node to any other. -/
def discoveryPath (context : QueryContext) (node : Node) : MatchElement :=
  .path (labeled node) ⟨discoveryRelation, none, context.direction⟩ { var := discoveryEnd }

/-- What a discovery returns: type, far label and count of the relationships. -/
def discoveryProjections (context : QueryContext) : List Projection :=
  let pick := if context.options.useParentRelation then "head" else "last"
  [.expression ("type(" ++ discoveryRelation ++ ")") "relationship",
    .expression (pick ++ "(labels(" ++ discoveryEnd ++ "))") "label",
    .expression ("count(" ++ discoveryRelation ++ ")") countColumn]

/-- Relationships that leave a node, on the straight path from the root and
without values. -/
def relationParts (context : QueryContext) (id : NodeId) :
    Except QueryError (Node × Query) := do
  let root ← context.graph.root
  let target ← context.graph.node id
  let links ← context.graph.linksToRoot target.id
  let elements ←
    compile context.metadata context.graph context.direction root.id target.id links false
  let query := base elements false
  pure (target, { query with
    matched := query.matched ++ [context.discoveryPath target]
    projections := context.discoveryProjections
    ending := [.orderBy ("count(" ++ discoveryRelation ++ ")") false] })

/-! ## Rendered statements -/

/-- Render a statement and pass it through a hook of its node's label. -/
def finish (context : QueryContext) (hook : QueryHooks → Option QueryHook)
    (parts : Node × Query) : QueryStructure :=
  let (node, query) := parts
  QueryHook.apply (hook (context.metadata.resolve node.label).hooks) node query.toStructure

/-- The result statement. -/
def resultQuery (context : QueryContext) : Except QueryError QueryStructure :=
  context.resultParts.map (context.finish QueryHooks.result)

/-- The statement of the graph form of results. -/
def graphQuery (context : QueryContext) : Except QueryError QueryStructure :=
  context.graphParts.map (context.finish QueryHooks.result)

/-- The count statement of a node. -/
def countQuery (context : QueryContext) (id : NodeId) : Except QueryError QueryStructure :=
  (context.countParts id).map (context.finish QueryHooks.count)

/-- The value listing of a node. -/
def valueQuery (context : QueryContext) (id : NodeId) : Except QueryError QueryStructure :=
  (context.valueParts id).map (context.finish QueryHooks.values)

/-- The relationship discovery of a node. -/
def relationQuery (context : QueryContext) (id : NodeId) : Except QueryError QueryStructure :=
  (context.relationParts id).map (context.finish QueryHooks.relations)

/-- The count statements of all counted nodes, in creation order. -/
def countQueries (context : QueryContext) :
    Except QueryError (List (NodeId × QueryStructure)) :=
  context.graph.countedNodes.mapM fun id => do
    let query ← context.countQuery id
    pure (id, query)

end QueryContext

/-- The number of distinct nodes of a label under its predefined constraints. -/
def taxonomyParts (metadata : LabelMetadata) (label : String) : Query :=
  let resolved := metadata.resolve label
  { matched := [.node { var := taxonomyVariable, label := some label }]
    predicates := resolved.predefinedConstraints.map fun template =>
      .raw (substitute "$identifier" taxonomyVariable template)
    projections :=
      [.countDistinct (operandOf taxonomyVariable resolved.constraintAttribute) countColumn] }

/-- The taxonomy count of a label. -/
def taxonomyQuery (metadata : LabelMetadata) (label : String) : QueryStructure :=
  (taxonomyParts metadata label).toStructure

end Compiler
end VisualQuery

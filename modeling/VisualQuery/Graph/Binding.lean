import VisualQuery.Graph.Removal

/-!
# Binding values

A term is bound to one of the values listed for it.  A value that loses its
binding goes away when no link leads to it any more.
-/

namespace VisualQuery
namespace QueryGraph

/-- Whether some link leads to a node. -/
def isTarget (id : NodeId) (graph : QueryGraph) : Bool :=
  graph.links.any fun link => link.target = id

/-- Remove a value that no link leads to. -/
def dropDetached (value : NodeId) (graph : QueryGraph) : QueryGraph :=
  if graph.isTarget value then graph else graph.removeSubtree value

/-- Bind a node to a value listed for it. -/
def bindValue (node value : NodeId) (graph : QueryGraph) : Except QueryError QueryGraph := do
  let owner ← graph.node node
  let candidate ← graph.node value
  if !candidate.isValue then throw (.invalidArgument .notAValue)
  if candidate.parent ≠ some node then throw (.invalidArgument .foreignValue)
  let bound := graph.modifyNode node fun node => { node with value := some value }
  match owner.value with
  | some previous => if previous = value then pure bound else pure (bound.dropDetached previous)
  | none => pure bound

/-- Unbind a node unless it is immutable; the answer tells whether a value was
bound. -/
def clearValue (node : NodeId) (graph : QueryGraph) :
    Except QueryError (Bool × QueryGraph) := do
  let owner ← graph.node node
  if owner.immutable then pure (false, graph)
  else
    match owner.value with
    | some previous =>
      let unbound := graph.modifyNode node fun node => { node with value := none }
      pure (true, unbound.dropDetached previous)
    | none => pure (false, graph)

/-- Pin or unpin the value of a node. -/
def setImmutable (node : NodeId) (immutable : Bool) (graph : QueryGraph) :
    Except QueryError QueryGraph := do
  let _ ← graph.node node
  pure (graph.modifyNode node fun node => { node with immutable })

end QueryGraph
end VisualQuery

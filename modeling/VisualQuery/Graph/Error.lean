import VisualQuery.Exchange.Failure
import VisualQuery.Graph.Identifier

/-!
# Refusals

Why an edit of the query graph, the compilation of a statement or a step of a
session is refused, and the text shown for each reason.
-/

namespace VisualQuery

/-- An argument that would break a rule of the graph. -/
inductive ArgumentFault where
  | valueOwner
  | rootRemoval
  | notAValue
  | foreignValue
  | notListable
  | notListed
  | pinned
  | undiscovered
deriving DecidableEq, Repr

namespace ArgumentFault

/-- The rule that an argument breaks. -/
def message : ArgumentFault → String
  | .valueOwner => "values can only be attached to root or choose nodes"
  | .rootRemoval => "the root node cannot be removed"
  | .notAValue => "only value nodes can be bound"
  | .foreignValue => "value was listed for another node"
  | .notListable => "only root and choose nodes list values"
  | .notListed => "only listed value nodes can be selected"
  | .pinned => "immutable nodes keep their value"
  | .undiscovered => "relationship was not discovered for this node"

end ArgumentFault

/-- Why an operation is refused. -/
inductive QueryError where
  /-- No node has the identifier. -/
  | unknownNode (node : NodeId)
  /-- No link has the identifier. -/
  | unknownLink (link : LinkId)
  /-- A root was added to a graph that holds nodes. -/
  | rootAlreadyPresent
  /-- The graph has no root yet. -/
  | missingRoot
  /-- A walk to the root came back to a node. -/
  | cyclicGraph (node : NodeId)
  /-- A walk to the root reached a node that no link enters. -/
  | detachedNode (node : NodeId)
  /-- An argument breaks a rule of the graph. -/
  | invalidArgument (fault : ArgumentFault)
  /-- The exchange with the database failed. -/
  | exchange (failure : ExchangeFailure)
  /-- A response came for a request that is no longer current. -/
  | staleResponse (token : Nat)
deriving DecidableEq, Repr

namespace QueryError

/-- The text shown for a refusal. -/
def message : QueryError → String
  | .unknownNode node => "unknown node " ++ node.display
  | .unknownLink link => "unknown link " ++ link.display
  | .rootAlreadyPresent => "graph already has a root node"
  | .missingRoot => "graph has no root node"
  | .cyclicGraph node =>
    "cycle detected while walking from node " ++ node.display ++ " to the root"
  | .detachedNode node => "node " ++ node.display ++ " is not connected to the root"
  | .invalidArgument fault => "invalid argument: " ++ fault.message
  | .exchange failure => "transport: " ++ failure.message
  | .staleResponse token => "stale response for request " ++ Nat.repr token

end QueryError
end VisualQuery

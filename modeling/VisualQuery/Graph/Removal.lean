import VisualQuery.Graph.Basic
import VisualQuery.Unvisited

/-!
# Removing what hangs below a node

A removal takes a node and everything reached from it by leaving a node along
one of its links or by going to a node that was expanded from it.  The root
stops the walk and always stays.  Links that touch a removed node go with it,
and nodes bound to a removed value become unbound.
-/

namespace VisualQuery
namespace QueryGraph

/-- Where one step of the walk leads from a node. -/
def successors (id : NodeId) (graph : QueryGraph) : List NodeId :=
  ((graph.links.filter fun link => link.source = id).map Link.target)
    ++ ((graph.nodes.filter fun node => node.parent = some id).map Node.id)

/-- Whether a node exists and is not the root. -/
def isRemovable (id : NodeId) (graph : QueryGraph) : Bool :=
  match graph.node? id with
  | some node => !node.isRoot
  | none => false

/-- Identifiers of all nodes. -/
def nodeIds (graph : QueryGraph) : List NodeId := graph.nodes.map Node.id

/-- A removable node is a node of the graph. -/
theorem mem_nodeIds_of_isRemovable
    {graph : QueryGraph}
    {id : NodeId}
    (removable : graph.isRemovable id = true) :
    id ∈ graph.nodeIds := by
  unfold isRemovable at removable
  split at removable
  · rename_i node found
    have named : node.id = id := by simpa using List.find?_some found
    exact List.mem_map.2 ⟨node, List.mem_of_find?_eq_some found, named⟩
  · simp at removable

/-- The removable nodes reached from a stack of nodes, added to those seen. -/
def reached (graph : QueryGraph) : (stack seen : List NodeId) → List NodeId
  | [], seen => seen
  | id :: stack, seen =>
    if _step : graph.isRemovable id = true ∧ id ∉ seen then
      reached graph (graph.successors id ++ stack) (id :: seen)
    else reached graph stack seen
termination_by stack seen => (unvisited seen graph.nodeIds, stack.length)
decreasing_by
  · exact Prod.Lex.left _ _ (unvisited_cons_lt (mem_nodeIds_of_isRemovable _step.1) _step.2)
  · exact Prod.Lex.right _ (by simp)

/-- Take nodes out of the graph with their links and bindings. -/
def dropNodes (removed : List NodeId) (graph : QueryGraph) : QueryGraph :=
  { graph with
    nodes :=
      (graph.nodes.filter fun node => node.id ∉ removed).map fun node =>
        match node.value with
        | some value => if value ∈ removed then { node with value := none } else node
        | none => node
    links :=
      graph.links.filter fun link => link.source ∉ removed && link.target ∉ removed }

/-- Remove a node with everything that hangs from it; the root stays. -/
def removeSubtree (id : NodeId) (graph : QueryGraph) : QueryGraph :=
  graph.dropNodes (graph.reached [id] [])

/-- Drop a link alone. -/
def dropLink (id : LinkId) (graph : QueryGraph) : QueryGraph :=
  { graph with links := graph.links.filter fun link => link.id ≠ id }

/-- Remove a node other than the root with everything expanded from it. -/
def removeNode (id : NodeId) (graph : QueryGraph) : Except QueryError QueryGraph := do
  let node ← graph.node id
  if node.isRoot then throw (.invalidArgument .rootRemoval)
  pure (graph.removeSubtree id)

/-- Remove a link and what hangs from its target. -/
def removeLink (id : LinkId) (graph : QueryGraph) : Except QueryError QueryGraph := do
  let link ← graph.link id
  pure ((graph.dropLink id).removeSubtree link.target)

/-- Remove a link that leads to a listed value: the bound value only loses its
link, any other goes with everything below it. -/
def removeListed (bound : Option NodeId) (graph : QueryGraph) (link : Link) : QueryGraph :=
  if bound = some link.target then graph.dropLink link.id
  else graph.removeSubtree link.target

/-- Remove the values listed below a node, except the bound one; the answer
counts the value links the node had. -/
def removeValues (id : NodeId) (graph : QueryGraph) :
    Except QueryError (Nat × QueryGraph) := do
  let node ← graph.node id
  let listed := graph.links.filter fun link => link.source = id && link.kind = .value
  let graph := listed.foldl (removeListed node.value) graph
  pure (listed.length, graph.modifyNode id fun node => { node with valueExpanded := false })

end QueryGraph
end VisualQuery

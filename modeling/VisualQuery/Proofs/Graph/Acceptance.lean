import VisualQuery.Proofs.Graph.Outcome

/-!
# When edits are accepted

The other direction of the outcome statements: an edit whose arguments pass the
checks is accepted, and this is the graph it makes.
-/

namespace VisualQuery
namespace QueryGraph

variable {graph : QueryGraph}

/-- The graph with a fresh term and the relationship that leads to it. -/
def withTerm
    (parent : NodeId)
    (relationship label : String)
    (isGroup : Bool)
    (graph : QueryGraph) : QueryGraph where
  nodes := graph.nodes ++ [graph.freshTerm parent label isGroup]
  links :=
    graph.links ++
      [⟨⟨graph.nextId + 1⟩, .relation, parent, ⟨graph.nextId⟩, some relationship⟩]
  nextId := graph.nextId + 2
  names := (graph.names.next label).2

/-- The graph with a fresh value and the link that lists it. -/
def withListed (owner : Node) (attributes : Row) (graph : QueryGraph) : QueryGraph where
  nodes := graph.nodes ++ [graph.freshValue owner attributes]
  links := graph.links ++ [⟨⟨graph.nextId + 1⟩, .value, owner.id, ⟨graph.nextId⟩, none⟩]
  nextId := graph.nextId + 2
  names := graph.names

namespace Coherent

/-- The number to come names no node yet. -/
theorem nextId_not_mem
    (coherent : graph.Coherent) :
    ⟨graph.nextId⟩ ∉ graph.nodeIds := by
  intro member
  obtain ⟨node, nodeMember, named⟩ := mem_nodeIds.1 member
  have below := coherent.nodesBelow node nodeMember
  rw [named] at below
  exact Nat.lt_irrefl _ below

/-- A node just appended is found under the number it got. -/
theorem node_append_fresh
    (coherent : graph.Coherent)
    {made : Node}
    (numbered : made.id = ⟨graph.nextId⟩)
    (links : List Link)
    (nextId : Nat)
    (names : VariableNames) :
    QueryGraph.node ⟨graph.nextId⟩ { nodes := graph.nodes ++ [made], links, nextId, names } =
      .ok made := by
  have missing : graph.nodes.find? (fun node => node.id = ⟨graph.nextId⟩) = none := by
    rw [List.find?_eq_none]
    intro node member named
    exact coherent.nextId_not_mem (mem_nodeIds.2 ⟨node, member, by simpa using named⟩)
  simp [QueryGraph.node, node?, List.find?_append, missing, numbered]

/-- A node that is there is still found after an append. -/
theorem node_append
    (coherent : graph.Coherent)
    {node : Node}
    (member : node ∈ graph.nodes)
    (made : List Node)
    (links : List Link)
    (nextId : Nat)
    (names : VariableNames) :
    QueryGraph.node node.id { nodes := graph.nodes ++ made, links, nextId, names } =
      .ok node := by
  have found : graph.nodes.find? (fun other => other.id = node.id) = some node :=
    coherent.node?_of_mem member
  simp [QueryGraph.node, node?, List.find?_append, found]

/-- A relationship from a node of the graph is accepted. -/
theorem addRelationship_accepted
    (coherent : graph.Coherent)
    {owner : Node}
    (member : owner ∈ graph.nodes)
    (relationship label : String)
    (isGroup : Bool) :
    graph.addRelationship owner.id relationship label isGroup =
      .ok (⟨graph.nextId⟩, graph.withTerm owner.id relationship label isGroup) := by
  have added :
      graph.addNode owner.id label isGroup =
        .ok (⟨graph.nextId⟩,
          { nodes := graph.nodes ++ [graph.freshTerm owner.id label isGroup]
            links := graph.links
            nextId := graph.nextId + 1
            names := (graph.names.next label).2 }) := by
    unfold addNode
    rw [coherent.node_of_mem member]
    rfl
  unfold addRelationship
  rw [added]
  simp only [bind, Except.bind, addLink]
  rw [coherent.node_append member, coherent.node_append_fresh rfl]
  rfl

/-- A value below a node that lists values is accepted. -/
theorem addValue_accepted
    (coherent : graph.Coherent)
    {owner : Node}
    (member : owner ∈ graph.nodes)
    (lists : owner.kind.listsValues = true)
    (attributes : Row) :
    graph.addValue owner.id attributes =
      .ok (⟨graph.nextId⟩, graph.withListed owner attributes) := by
  have found := coherent.node_append member [graph.freshValue owner attributes] graph.links
    (graph.nextId + 1) graph.names
  have made : (graph.freshValue owner attributes).id = ⟨graph.nextId⟩ := rfl
  have fresh := coherent.node_append_fresh made graph.links (graph.nextId + 1) graph.names
  unfold freshValue at found fresh
  simp only [addValue, coherent.node_of_mem member, lists, bind, Except.bind, pure,
    Except.pure, pushNode, Bool.not_true, Bool.false_eq_true, if_false, addLink]
  rw [found, fresh]
  rfl

/-- A value below any other node is refused. -/
theorem addValue_refused
    (coherent : graph.Coherent)
    {owner : Node}
    (member : owner ∈ graph.nodes)
    (listsNone : owner.kind.listsValues = false)
    (attributes : Row) :
    graph.addValue owner.id attributes = .error (.invalidArgument .valueOwner) := by
  unfold addValue
  rw [coherent.node_of_mem member]
  simp only [bind, Except.bind, listsNone]
  rfl

/-- A value below a node is accepted as its binding. -/
theorem bindValue_accepted
    (coherent : graph.Coherent)
    {owner value : Node}
    (ownerMember : owner ∈ graph.nodes)
    (valueMember : value ∈ graph.nodes)
    (isValue : value.kind = .value)
    (parent : value.parent = some owner.id) :
    graph.bindValue owner.id value.id =
      .ok ((graph.modifyNode owner.id fun node => { node with value := some value.id }).dropPrevious
        value.id owner.value) := by
  unfold bindValue dropPrevious
  simp only [coherent.node_of_mem ownerMember, coherent.node_of_mem valueMember, Node.isValue,
    isValue, parent, bind, Except.bind, pure, Except.pure, decide_true, Bool.not_true,
    Bool.false_eq_true, if_false, ne_eq, not_true_eq_false]
  cases owner.value with
  | none => rfl
  | some previous =>
      by_cases same : previous = value.id
      · simp [same]
      · simp [same]

/-- A node that is bound and not pinned is unbound. -/
theorem clearValue_accepted
    (coherent : graph.Coherent)
    {owner : Node}
    (member : owner ∈ graph.nodes)
    (unpinned : owner.immutable = false)
    {previous : NodeId}
    (bound : owner.value = some previous) :
    graph.clearValue owner.id =
      .ok (true, (graph.modifyNode owner.id fun node =>
        { node with value := none }).dropDetached previous) := by
  unfold clearValue
  rw [coherent.node_of_mem member]
  simp only [bind, Except.bind, unpinned, Bool.false_eq_true, if_false, bound]
  rfl

/-- Unbinding a node of the graph is accepted, whatever it is bound to. -/
theorem exists_clearValue
    (coherent : graph.Coherent)
    {owner : Node}
    (member : owner ∈ graph.nodes) :
    ∃ cleared after, graph.clearValue owner.id = .ok (cleared, after) := by
  unfold clearValue
  rw [coherent.node_of_mem member]
  simp only [bind, Except.bind]
  split
  · exact ⟨_, _, rfl⟩
  · split <;> exact ⟨_, _, rfl⟩

theorem setImmutable_accepted
    (coherent : graph.Coherent)
    {owner : Node}
    (member : owner ∈ graph.nodes)
    (immutable : Bool) :
    graph.setImmutable owner.id immutable =
      .ok (graph.modifyNode owner.id fun node => { node with immutable }) := by
  unfold setImmutable
  rw [coherent.node_of_mem member]
  rfl

theorem removeValues_accepted
    (coherent : graph.Coherent)
    {owner : Node}
    (member : owner ∈ graph.nodes) :
    graph.removeValues owner.id =
      .ok ((graph.valueLinks owner.id).length,
        ((graph.valueLinks owner.id).foldl (removeListed owner.value) graph).modifyNode owner.id
          fun node => { node with valueExpanded := false }) := by
  unfold removeValues
  rw [coherent.node_of_mem member]
  rfl

end Coherent

end QueryGraph
end VisualQuery

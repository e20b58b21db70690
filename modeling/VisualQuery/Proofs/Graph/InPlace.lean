import VisualQuery.Proofs.Graph.Coherence
import VisualQuery.Proofs.Graph.Edit

/-!
# Changing nodes in place

A change in place leaves number, kind, parent, label and variable of a node
alone.  What it does to the bound value has to be checked; everything else
about a coherent graph is unaffected.
-/

namespace VisualQuery

/-- A change leaves alone what other nodes and the statements rely on. -/
structure Node.InPlace (change : Node → Node) : Prop where
  id : ∀ node, (change node).id = node.id
  kind : ∀ node, (change node).kind = node.kind
  parent : ∀ node, (change node).parent = node.parent
  label : ∀ node, (change node).label = node.label
  var : ∀ node, (change node).var = node.var

namespace Node.InPlace

/-- Changing only the nodes that pass a test. -/
theorem ite
    {change : Node → Node}
    (inPlace : InPlace change)
    (test : Node → Bool) :
    InPlace fun node => if test node then change node else node where
  id := by intro node; split <;> simp [inPlace.id]
  kind := by intro node; split <;> simp [inPlace.kind]
  parent := by intro node; split <;> simp [inPlace.parent]
  label := by intro node; split <;> simp [inPlace.label]
  var := by intro node; split <;> simp [inPlace.var]

theorem setValue (value : Option NodeId) :
    InPlace fun node => { node with value } :=
  ⟨fun _ => rfl, fun _ => rfl, fun _ => rfl, fun _ => rfl, fun _ => rfl⟩

theorem setImmutable (immutable : Bool) :
    InPlace fun node => { node with immutable } :=
  ⟨fun _ => rfl, fun _ => rfl, fun _ => rfl, fun _ => rfl, fun _ => rfl⟩

theorem setValueExpanded (valueExpanded : Bool) :
    InPlace fun node => { node with valueExpanded } :=
  ⟨fun _ => rfl, fun _ => rfl, fun _ => rfl, fun _ => rfl, fun _ => rfl⟩

theorem note (change : NodeNotes → NodeNotes) :
    InPlace fun node => node.withNotes (change node.notes) :=
  ⟨fun _ => rfl, fun _ => rfl, fun _ => rfl, fun _ => rfl, fun _ => rfl⟩

end Node.InPlace

namespace QueryGraph

/-- Change every node. -/
def mapNodes (change : Node → Node) (graph : QueryGraph) : QueryGraph :=
  { graph with nodes := graph.nodes.map change }

theorem modifyNode_eq_mapNodes
    (id : NodeId)
    (change : Node → Node)
    (graph : QueryGraph) :
    graph.modifyNode id change =
      graph.mapNodes fun node => if decide (node.id = id) then change node else node := by
  simp [modifyNode, mapNodes]

/-- Changing a node leaves a graph alone exactly if it leaves every node with
the number alone. -/
theorem modifyNode_eq_self_iff
    {id : NodeId}
    {change : Node → Node}
    {graph : QueryGraph} :
    graph.modifyNode id change = graph ↔
      ∀ node ∈ graph.nodes, node.id = id → change node = node := by
  have nodes : graph.modifyNode id change = graph ↔
      (graph.nodes.map fun node => if node.id = id then change node else node) =
        graph.nodes.map fun node => node := by
    rw [List.map_id']
    constructor
    · intro same
      exact congrArg QueryGraph.nodes same
    · intro same
      rw [modifyNode, same]
  rw [nodes, List.map_inj_left]
  constructor
  · intro same node member named
    have kept := same node member
    rwa [if_pos named] at kept
  · intro same node member
    split
    · rename_i named
      exact same node member named
    · rfl

@[simp] theorem mem_mapNodes
    {change : Node → Node}
    {graph : QueryGraph}
    {node : Node} :
    node ∈ (graph.mapNodes change).nodes ↔ ∃ old ∈ graph.nodes, change old = node := by
  simp [mapNodes]

theorem mem_modifyNode
    {id : NodeId}
    {change : Node → Node}
    {graph : QueryGraph}
    {node : Node} :
    node ∈ (graph.modifyNode id change).nodes ↔
      ∃ old ∈ graph.nodes, (if old.id = id then change old else old) = node := by
  simp [modifyNode]

/-- The changed node is there. -/
theorem mem_modifyNode_self
    {graph : QueryGraph}
    {node : Node}
    (member : node ∈ graph.nodes)
    (change : Node → Node) :
    change node ∈ (graph.modifyNode node.id change).nodes :=
  mem_modifyNode.2 ⟨node, member, if_pos rfl⟩

/-- Every node of a graph changed in place was there before. -/
theorem exists_of_mem_modifyNode
    {change : Node → Node}
    (inPlace : Node.InPlace change)
    {id : NodeId}
    {graph : QueryGraph}
    {node : Node}
    (member : node ∈ (graph.modifyNode id change).nodes) :
    ∃ old ∈ graph.nodes,
      old.id = node.id ∧ old.kind = node.kind ∧ old.parent = node.parent := by
  obtain ⟨old, oldMember, rfl⟩ := mem_modifyNode.1 member
  refine ⟨old, oldMember, ?_⟩
  split
  · exact ⟨(inPlace.id old).symm, (inPlace.kind old).symm, (inPlace.parent old).symm⟩
  · exact ⟨rfl, rfl, rfl⟩

theorem nodeIds_mapNodes
    {change : Node → Node}
    (inPlace : Node.InPlace change)
    (graph : QueryGraph) :
    (graph.mapNodes change).nodeIds = graph.nodeIds := by
  simp [nodeIds, mapNodes, Function.comp_def, inPlace.id]

/-- A change in place keeps a graph coherent if every value bound afterwards is
a value below its node. -/
theorem Coherent.mapNodes
    {graph : QueryGraph}
    (coherent : graph.Coherent)
    {change : Node → Node}
    (inPlace : Node.InPlace change)
    (bound :
      ∀ node ∈ graph.nodes, ∀ id, (change node).value = some id →
        ∃ value ∈ graph.nodes,
          value.id = id ∧ value.kind = .value ∧ value.parent = some node.id) :
    (graph.mapNodes change).Coherent where
  nodesOrdered := by
    refine List.pairwise_map.2 (coherent.nodesOrdered.imp ?_)
    intro earlier later ordered
    rw [inPlace.id, inPlace.id]
    exact ordered
  linksOrdered := coherent.linksOrdered
  nodesBelow := by
    intro node member
    obtain ⟨old, oldMember, rfl⟩ := mem_mapNodes.1 member
    rw [inPlace.id]
    exact coherent.nodesBelow old oldMember
  linksBelow := coherent.linksBelow
  numbersDisjoint := by
    intro node member link linkMember
    obtain ⟨old, oldMember, rfl⟩ := mem_mapNodes.1 member
    rw [inPlace.id]
    exact coherent.numbersDisjoint old oldMember link linkMember
  freshWhenEmpty := by
    intro empty
    exact coherent.freshWhenEmpty (List.map_eq_nil_iff.1 empty)
  rootFirst := by
    intro first rest split
    obtain ⟨head, tail, nodes_eq, rfl, rfl⟩ := List.map_eq_cons_iff.1 split
    obtain ⟨kind, id, parent, others⟩ := coherent.rootFirst head tail nodes_eq
    rw [inPlace.kind, inPlace.id, inPlace.parent]
    refine ⟨kind, id, parent, ?_⟩
    intro node member
    obtain ⟨old, oldMember, rfl⟩ := List.mem_map.1 member
    rw [inPlace.kind]
    exact others old oldMember
  parentEarlier := by
    intro node member notRoot
    obtain ⟨old, oldMember, rfl⟩ := mem_mapNodes.1 member
    rw [inPlace.kind] at notRoot
    obtain ⟨above, aboveMember, isParent, smaller⟩ :=
      coherent.parentEarlier old oldMember notRoot
    refine ⟨change above, mem_mapNodes.2 ⟨above, aboveMember, rfl⟩, ?_⟩
    rw [inPlace.parent, inPlace.id, inPlace.id]
    exact ⟨isParent, smaller⟩
  linkEnds := by
    intro link member
    rw [nodeIds_mapNodes inPlace]
    exact coherent.linkEnds link member
  boundBelow := by
    intro node member id isBound
    obtain ⟨old, oldMember, rfl⟩ := mem_mapNodes.1 member
    obtain ⟨value, valueMember, named, kind, parent⟩ := bound old oldMember id isBound
    refine ⟨change value, mem_mapNodes.2 ⟨value, valueMember, rfl⟩, ?_⟩
    rw [inPlace.id, inPlace.kind, inPlace.parent, inPlace.id]
    exact ⟨named, kind, parent⟩
  valueOwner := by
    intro value member isValue
    obtain ⟨old, oldMember, rfl⟩ := mem_mapNodes.1 member
    rw [inPlace.kind] at isValue
    obtain ⟨owner, ownerMember, parent, lists⟩ := coherent.valueOwner old oldMember isValue
    refine ⟨change owner, mem_mapNodes.2 ⟨owner, ownerMember, rfl⟩, ?_⟩
    rw [inPlace.parent, inPlace.id, inPlace.kind]
    exact ⟨parent, lists⟩

/-- Changes that leave bound values alone. -/
theorem Coherent.mapNodes_of_value
    {graph : QueryGraph}
    (coherent : graph.Coherent)
    {change : Node → Node}
    (inPlace : Node.InPlace change)
    (sameValue : ∀ node, (change node).value = node.value) :
    (graph.mapNodes change).Coherent := by
  apply coherent.mapNodes inPlace
  intro node member id bound
  rw [sameValue] at bound
  exact coherent.boundBelow node member id bound

end QueryGraph
end VisualQuery
